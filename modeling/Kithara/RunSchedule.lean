import Kithara.CheckedArithmetic
import Kithara.RangeGaps

/-! Where an analysis run starts next: region centres first, then the leftover windows, then the
middle of the widest gap. Word arithmetic that leaves the word and a loop cut short stop with an
error of their own. -/
namespace RunSchedule

open RangeRuns
open CheckedArithmetic (divCeil divCeil_le le_divCeil mul_lt_of_lt_divCeil)

inductive Stuck
  | overflow
  | unfinished
  deriving DecidableEq

def u64Max : ℕ := 2 ^ 64 - 1

def add (a b : ℕ) : Except Stuck ℕ := if a + b ≤ u64Max then .ok (a + b) else .error .overflow

def mul (a b : ℕ) : Except Stuck ℕ := if a * b ≤ u64Max then .ok (a * b) else .error .overflow

def saturatingAdd (a b : ℕ) : ℕ := min (a + b) u64Max

def saturatingMul (a b : ℕ) : ℕ := min (a * b) u64Max

def frames (span : ℕ × ℕ) : ℕ := span.2 - span.1

structure Schedule where
  barren : Finset ℕ

def regionMidpoint (identities regions region : ℕ) : Except Stuck ℕ := do
  let width := identities / regions
  let wider := identities % regions
  let start ← add (← mul region width) (min region wider)
  let count ← add width (if region < wider then 1 else 0)
  add start (count / 2)

def overlaps (coverage : RangeSet ℕ) (start stop : ℕ) : Bool :=
  coverage.runs.any fun run => decide (run.1 < stop) && decide (start < run.2)

def aim (window : Option ℕ) (gap : ℕ × ℕ) : ℕ :=
  match (window.filter fun window => window < frames gap).map fun window =>
    (frames gap - window) / 2 with
  | none => gap.1
  | some inset => saturatingAdd gap.1 inset

/-- The first position the loop body returns. -/
def firstOf (body : ℕ → Except Stuck (Option ℕ)) : List ℕ → Except Stuck (Option ℕ)
  | [] => .ok none
  | i :: rest => do
    match ← body i with
    | some position => return some position
    | none => firstOf body rest

namespace Schedule

/-- One turn of the loop that keeps the widest gap whose position is not barren. -/
def wider (s : Schedule) (position : ℕ × ℕ → ℕ) (widest : Option (ℕ × ℕ)) (gap : ℕ × ℕ) :
    Option (ℕ × ℕ) :=
  if position gap ∈ s.barren then widest
  else match widest with
    | none => some gap
    | some held => if frames held < frames gap then some gap else some held

def widest (s : Schedule) (position : ℕ × ℕ → ℕ) (gaps : List (ℕ × ℕ)) : Option (ℕ × ℕ) :=
  gaps.foldl (s.wider position) none

def extend (s : Schedule) (coverage : RangeSet ℕ) (extent : Option ℕ) : Option ℕ := do
  let extent ← extent
  (s.widest Prod.fst (coverage.gaps 0 extent)).map Prod.fst

def gapTarget (s : Schedule) (coverage : RangeSet ℕ) (extent : ℕ) (window : Option ℕ) : Option ℕ :=
  (s.widest (aim window) (coverage.gaps 0 extent)).map (aim window)

def untouched (s : Schedule) (coverage : RangeSet ℕ) (extent window identity : ℕ) :
    Except Stuck (Option ℕ) := do
  let position ← mul identity window
  let frames := min window (extent - position)
  return if position ∉ s.barren ∧ 0 < frames ∧
      ¬ overlaps coverage position (saturatingAdd position frames)
    then some position else none

/-- The loop over ever more regions, as many turns of it as `steps` allows. -/
def spread (s : Schedule) (coverage : RangeSet ℕ) (extent window identities : ℕ) :
    ℕ → ℕ → Except Stuck (Option ℕ)
  | 0, _ => .error .unfinished
  | steps + 1, regions =>
    if regions < identities then do
      let centre := fun region => do
        let identity ← regionMidpoint identities regions region
        s.untouched coverage extent window identity
      match ← firstOf centre (List.range regions) with
      | some position => return some position
      | none => s.spread coverage extent window identities steps (saturatingMul regions 2)
    else return none

def next (s : Schedule) (steps : ℕ) (coverage : RangeSet ℕ) (extent window : Option ℕ) :
    Except Stuck (Option ℕ) :=
  match extent with
  | none => .ok none
  | some extent =>
    match window.filter fun window => 0 < window with
    | none => .ok (s.gapTarget coverage extent none)
    | some window => do
      let identities := divCeil extent window
      match ← s.spread coverage extent window identities steps 2 with
      | some position => return some position
      | none =>
        match ← firstOf (s.untouched coverage extent window) (List.range identities) with
        | some position => return some position
        | none => return s.gapTarget coverage extent (some window)

end Schedule

theorem ok_bind {α β : Type} (x : α) (f : α → Except Stuck β) : (Except.ok x >>= f) = f x := rfl

theorem add_ok {a b : ℕ} (h : a + b ≤ u64Max) : add a b = .ok (a + b) := if_pos h

theorem mul_ok {a b : ℕ} (h : a * b ≤ u64Max) : mul a b = .ok (a * b) := if_pos h

theorem regionMidpoint_ok {identities regions region : ℕ} (hword : identities ≤ u64Max)
    (hregion : region < regions) (hregions : regions < identities) :
    ∃ identity < identities, regionMidpoint identities regions region = .ok identity := by
  have hdiv := Nat.div_add_mod identities regions
  have hpos : 0 < identities / regions := Nat.div_pos hregions.le (by omega)
  have hnext := Nat.mul_le_mul_right (identities / regions) (Nat.succ_le_of_lt hregion)
  rw [Nat.succ_mul] at hnext
  have hcount : region * (identities / regions) + min region (identities % regions) +
      (identities / regions + if region < identities % regions then 1 else 0) ≤ identities := by
    split <;> omega
  refine ⟨region * (identities / regions) + min region (identities % regions) +
    (identities / regions + if region < identities % regions then 1 else 0) / 2, by omega, ?_⟩
  simp only [regionMidpoint]
  rw [mul_ok (by omega), ok_bind, add_ok (by omega), ok_bind, add_ok (by omega),
    ok_bind, add_ok (by omega)]

/-- A loop whose every body answers takes the first position one of them gives. -/
theorem firstOf_ok {body : ℕ → Except Stuck (Option ℕ)} {answer : ℕ → Option ℕ} {items : List ℕ}
    (h : ∀ i ∈ items, body i = .ok (answer i)) :
    firstOf body items = .ok (items.findSome? answer) := by
  induction items with
  | nil => rfl
  | cons i rest ih =>
    simp only [firstOf]
    rw [h i (by simp), ok_bind, List.findSome?_cons]
    cases answer i with
    | some position => rfl
    | none => exact ih fun j hj => h j (List.mem_cons_of_mem _ hj)

theorem not_overlaps {coverage : RangeSet ℕ} {start stop : ℕ} (h : start < stop) :
    ¬ overlaps coverage start stop ↔ ∀ x, start ≤ x → x < stop → x ∉ coverage := by
  simp only [overlaps, List.any_eq_true, Bool.and_eq_true, decide_eq_true_eq]
  constructor
  · rintro hnone x hx1 hx2 ⟨run, hrun, hle, hlt⟩
    exact hnone ⟨run, hrun, by omega, by omega⟩
  · rintro hfree ⟨run, hrun, hle, hlt⟩
    have hne := coverage.canonical.1 run hrun
    exact hfree (max start run.1) (by omega) (by omega) ⟨run, hrun, by omega, by omega⟩

/-- Nothing of a window is covered. -/
def Untouched (coverage : RangeSet ℕ) (extent window identity : ℕ) : Prop :=
  ∀ x, identity * window ≤ x → x < min (identity * window + window) extent → x ∉ coverage

namespace Schedule

variable {s : Schedule} {coverage : RangeSet ℕ} {extent window : ℕ}

/-- What the schedule makes of a window of the extent. -/
def offer (s : Schedule) (coverage : RangeSet ℕ) (extent window identity : ℕ) : Option ℕ :=
  if identity * window ∉ s.barren ∧
      ¬ overlaps coverage (identity * window) (min (identity * window + window) extent)
  then some (identity * window) else none

theorem untouched_ok {identity : ℕ} (hword : extent ≤ u64Max) (hw : 0 < window)
    (h : identity < divCeil extent window) :
    s.untouched coverage extent window identity =
      .ok (s.offer coverage extent window identity) := by
  have hlt := mul_lt_of_lt_divCeil h
  have hend : saturatingAdd (identity * window) (min window (extent - identity * window)) =
      min (identity * window + window) extent := by
    unfold saturatingAdd
    omega
  simp only [untouched]
  rw [mul_ok (by omega), ok_bind, hend]
  refine congrArg Except.ok (if_congr ?_ rfl rfl)
  exact and_congr_right fun _ => and_iff_right (by omega)

theorem offer_eq_some {identity position : ℕ} (hw : 0 < window)
    (h : identity < divCeil extent window) :
    s.offer coverage extent window identity = some position ↔
      identity * window = position ∧ position ∉ s.barren ∧
        Untouched coverage extent window identity := by
  have hlt := mul_lt_of_lt_divCeil h
  unfold offer
  split
  · next hok =>
    rw [not_overlaps (by omega)] at hok
    rw [Option.some.injEq]
    constructor
    · rintro rfl
      exact ⟨rfl, hok⟩
    · exact And.left
  · next hno =>
    rw [not_overlaps (by omega)] at hno
    simp only [reduceCtorEq, false_iff]
    rintro ⟨rfl, hok⟩
    exact hno hok

theorem offer_eq_none {identity : ℕ} (hw : 0 < window) (h : identity < divCeil extent window) :
    s.offer coverage extent window identity = none ↔
      (Untouched coverage extent window identity → identity * window ∈ s.barren) := by
  rw [Option.eq_none_iff_forall_ne_some]
  constructor
  · intro hnone hfree
    by_contra hbarren
    exact hnone _ ((offer_eq_some hw h).mpr ⟨rfl, hbarren, hfree⟩)
  · intro himp position hsome
    obtain ⟨rfl, hbarren, hfree⟩ := (offer_eq_some hw h).mp hsome
    exact hbarren (himp hfree)

/-- The doubling loop stops within 64 turns and offers windows of the extent only. -/
theorem spread_ok (s : Schedule) (coverage : RangeSet ℕ) {steps regions : ℕ}
    (hword : extent ≤ u64Max) (hw : 0 < window)
    (hpos : 0 < regions) (hsteps : divCeil extent window ≤ regions * 2 ^ steps) :
    ∃ visits : List ℕ, (∀ i ∈ visits, i < divCeil extent window) ∧
      s.spread coverage extent window (divCeil extent window) (steps + 1) regions =
        .ok (visits.findSome? (s.offer coverage extent window)) := by
  have hidentities := (divCeil_le (a := extent) hw).trans hword
  induction steps generalizing regions with
  | zero =>
    refine ⟨[], by simp, ?_⟩
    simp only [spread]
    rw [if_neg (by omega)]
    rfl
  | succ steps ih =>
    by_cases hmore : regions < divCeil extent window
    · have hcentres : ∀ region ∈ List.range regions, ∃ identity < divCeil extent window,
          regionMidpoint (divCeil extent window) regions region = .ok identity := fun region hr =>
        regionMidpoint_ok hidentities (List.mem_range.mp hr) hmore
      choose! centre hcentre hcentreOk using hcentres
      have hdoubled : 0 < saturatingMul regions 2 := by
        unfold saturatingMul u64Max
        omega
      have hfits : divCeil extent window ≤ saturatingMul regions 2 * 2 ^ steps := by
        unfold saturatingMul
        rcases Nat.le_total (regions * 2) u64Max with hle | hge
        · rw [Nat.min_eq_left hle, Nat.mul_assoc, ← Nat.pow_succ']
          exact hsteps
        · rw [Nat.min_eq_right hge]
          exact hidentities.trans (Nat.le_mul_of_pos_right _ (Nat.two_pow_pos steps))
      obtain ⟨visits, hvisits, hspread⟩ := ih hdoubled hfits
      refine ⟨(List.range regions).map centre ++ visits, ?_, ?_⟩
      · intro i hi
        rcases List.mem_append.mp hi with hi | hi
        · obtain ⟨region, hr, rfl⟩ := List.mem_map.mp hi
          exact hcentre region hr
        · exact hvisits i hi
      · have hcentres : firstOf (fun region => do
              let identity ← regionMidpoint (divCeil extent window) regions region
              s.untouched coverage extent window identity) (List.range regions) =
            .ok (((List.range regions).map centre).findSome?
              (s.offer coverage extent window)) := by
          rw [List.findSome?_map]
          refine firstOf_ok fun region hr => ?_
          rw [hcentreOk region hr, ok_bind]
          exact untouched_ok hword hw (hcentre region hr)
        simp only [spread]
        rw [if_pos hmore, hcentres, ok_bind, List.findSome?_append]
        cases ((List.range regions).map centre).findSome? (s.offer coverage extent window) with
        | some position => rfl
        | none => exact hspread
    · refine ⟨[], by simp, ?_⟩
      rw [spread, if_neg hmore]
      rfl

/-- With a window the next run goes where an offer is, the leftover windows after the centres, and
to a gap when there is no offer. -/
theorem next_ok (s : Schedule) (coverage : RangeSet ℕ) {steps : ℕ} (hword : extent ≤ u64Max)
    (hw : 0 < window) (hsteps : 64 ≤ steps) :
    ∃ visits : List ℕ, (∀ i, i ∈ visits ↔ i < divCeil extent window) ∧
      s.next steps coverage (some extent) (some window) =
        .ok ((visits.findSome? (s.offer coverage extent window)).or
          (s.gapTarget coverage extent (some window))) := by
  have hidentities := (divCeil_le (a := extent) hw).trans hword
  obtain ⟨rest, rfl⟩ := Nat.exists_eq_add_of_le' (show 1 ≤ steps by omega)
  have hfits : divCeil extent window ≤ 2 * 2 ^ rest := by
    have hpow := Nat.pow_le_pow_right (n := 2) (by omega) (show 63 ≤ rest by omega)
    unfold u64Max at hidentities
    omega
  obtain ⟨centres, hcentres, hspread⟩ :=
    spread_ok s coverage hword hw (show 0 < 2 by omega) hfits
  have hrest : firstOf (s.untouched coverage extent window)
      (List.range (divCeil extent window)) =
      .ok ((List.range (divCeil extent window)).findSome? (s.offer coverage extent window)) :=
    firstOf_ok fun i hi => untouched_ok hword hw (List.mem_range.mp hi)
  refine ⟨centres ++ List.range (divCeil extent window), fun i => ?_, ?_⟩
  · rw [List.mem_append, List.mem_range]
    exact or_iff_right_of_imp (hcentres i)
  · simp only [next]
    rw [Option.filter_some_pos (by simpa using hw)]
    simp only
    rw [hspread, ok_bind, List.findSome?_append]
    cases centres.findSome? (s.offer coverage extent window) with
    | some position => rfl
    | none =>
      simp only
      rw [hrest, ok_bind]
      cases (List.range (divCeil extent window)).findSome? (s.offer coverage extent window) with
      | some position => rfl
      | none => rfl

theorem wider_some {position : ℕ × ℕ → ℕ} {held : Option (ℕ × ℕ)} {gap found : ℕ × ℕ}
    (h : s.wider position held gap = some found) :
    held = some found ∨ (found = gap ∧ position gap ∉ s.barren) := by
  simp only [wider] at h
  split at h
  · exact Or.inl h
  · next hbarren =>
    split at h
    · exact Or.inr ⟨(Option.some.inj h).symm, hbarren⟩
    · split at h
      · exact Or.inr ⟨(Option.some.inj h).symm, hbarren⟩
      · exact Or.inl h

theorem wider_none {position : ℕ × ℕ → ℕ} {held : Option (ℕ × ℕ)} {gap : ℕ × ℕ} :
    s.wider position held gap = none ↔ held = none ∧ position gap ∈ s.barren := by
  simp only [wider]
  split
  · next hbarren => simp [hbarren]
  · next hbarren =>
    split
    · simp [hbarren]
    · split <;> simp

theorem foldl_wider_some {position : ℕ × ℕ → ℕ} {gaps : List (ℕ × ℕ)} {held : Option (ℕ × ℕ)}
    {found : ℕ × ℕ} (h : gaps.foldl (s.wider position) held = some found) :
    held = some found ∨ (found ∈ gaps ∧ position found ∉ s.barren) := by
  induction gaps generalizing held with
  | nil => exact Or.inl h
  | cons gap rest ih =>
    rcases ih h with hheld | ⟨hmem, hbarren⟩
    · rcases wider_some hheld with hheld | ⟨rfl, hbarren⟩
      · exact Or.inl hheld
      · exact Or.inr ⟨List.mem_cons_self .., hbarren⟩
    · exact Or.inr ⟨List.mem_cons_of_mem _ hmem, hbarren⟩

theorem foldl_wider_none {position : ℕ × ℕ → ℕ} {gaps : List (ℕ × ℕ)} {held : Option (ℕ × ℕ)} :
    gaps.foldl (s.wider position) held = none ↔
      held = none ∧ ∀ gap ∈ gaps, position gap ∈ s.barren := by
  induction gaps generalizing held with
  | nil => simp
  | cons gap rest ih =>
    rw [List.foldl_cons, ih, wider_none, List.forall_mem_cons, and_assoc]

theorem foldl_wider_le {position : ℕ × ℕ → ℕ} {gaps : List (ℕ × ℕ)} {held : Option (ℕ × ℕ)}
    {found : ℕ × ℕ} (h : gaps.foldl (s.wider position) held = some found) :
    (∀ gap ∈ held, frames gap ≤ frames found) ∧
      ∀ gap ∈ gaps, position gap ∉ s.barren → frames gap ≤ frames found := by
  induction gaps generalizing held with
  | nil =>
    refine ⟨fun gap hgap => ?_, by simp⟩
    obtain rfl := Option.some.inj (hgap.symm.trans h)
    exact le_rfl
  | cons gap rest ih =>
    obtain ⟨hheld, hrest⟩ := ih h
    simp only [wider] at hheld
    split at hheld
    · next hbarren =>
      exact ⟨hheld, List.forall_mem_cons.mpr ⟨fun hno => absurd hbarren hno, hrest⟩⟩
    · split at hheld
      · refine ⟨by simp, List.forall_mem_cons.mpr ⟨fun _ => hheld gap rfl, hrest⟩⟩
      · next held =>
        split at hheld
        · next hlt =>
          have hgap := hheld gap rfl
          refine ⟨fun old hold => ?_, List.forall_mem_cons.mpr ⟨fun _ => hgap, hrest⟩⟩
          obtain rfl := Option.some.inj hold
          omega
        · next hge =>
          have hgap := hheld held rfl
          refine ⟨fun old hold => ?_, List.forall_mem_cons.mpr ⟨fun _ => by omega, hrest⟩⟩
          obtain rfl := Option.some.inj hold
          exact hgap

theorem widest_eq_some {position : ℕ × ℕ → ℕ} {gaps : List (ℕ × ℕ)} {found : ℕ × ℕ}
    (h : s.widest position gaps = some found) :
    found ∈ gaps ∧ position found ∉ s.barren ∧
      ∀ gap ∈ gaps, position gap ∉ s.barren → frames gap ≤ frames found :=
  have ⟨hmem, hbarren⟩ := (foldl_wider_some h).resolve_left (by simp)
  ⟨hmem, hbarren, (foldl_wider_le h).2⟩

theorem gapTarget_eq_some {window : Option ℕ} {position : ℕ}
    (h : s.gapTarget coverage extent window = some position) :
    position ∉ s.barren ∧ ∃ gap ∈ coverage.gaps 0 extent, aim window gap = position ∧
      ∀ other ∈ coverage.gaps 0 extent, aim window other ∉ s.barren →
        frames other ≤ frames gap := by
  obtain ⟨gap, hgap, rfl⟩ := Option.map_eq_some_iff.mp h
  obtain ⟨hmem, hbarren, hwidest⟩ := widest_eq_some hgap
  exact ⟨hbarren, gap, hmem, rfl, hwidest⟩

theorem gapTarget_eq_none {window : Option ℕ} :
    s.gapTarget coverage extent window = none ↔
      ∀ gap ∈ coverage.gaps 0 extent, aim window gap ∈ s.barren := by
  rw [gapTarget, Option.map_eq_none_iff, widest, foldl_wider_none]
  exact and_iff_right rfl

/-- A run that goes on is put at the front of a widest gap that may be read from its front. -/
theorem extend_eq_some {position : ℕ} (h : s.extend coverage (some extent) = some position) :
    position ∉ s.barren ∧ ∃ gap ∈ coverage.gaps 0 extent, gap.1 = position ∧
      ∀ other ∈ coverage.gaps 0 extent, other.1 ∉ s.barren → frames other ≤ frames gap := by
  obtain ⟨gap, hgap, rfl⟩ := Option.map_eq_some_iff.mp h
  obtain ⟨hmem, hbarren, hwidest⟩ := widest_eq_some hgap
  exact ⟨hbarren, gap, hmem, rfl, hwidest⟩

end Schedule

theorem aim_some {gap : ℕ × ℕ} {window : ℕ} (hword : gap.2 ≤ u64Max) :
    aim (some window) gap =
      if window < frames gap then gap.1 + (frames gap - window) / 2 else gap.1 := by
  unfold aim
  split
  · next hnone =>
    rw [if_neg]
    exact fun hlt => absurd hlt (by simpa using hnone)
  · next inset hsome =>
    obtain ⟨kept, hkept, rfl⟩ := Option.map_eq_some_iff.mp hsome
    obtain ⟨hkept, hlt⟩ := Option.filter_eq_some_iff.mp hkept
    obtain rfl := Option.some.inj hkept
    have hlt := of_decide_eq_true hlt
    rw [if_pos hlt, saturatingAdd, Nat.min_eq_left]
    unfold frames at hlt ⊢
    omega

theorem aim_inside {gap : ℕ × ℕ} {window : ℕ} (hword : gap.2 ≤ u64Max) (h : gap.1 < gap.2)
    (hw : 0 < window) : gap.1 ≤ aim (some window) gap ∧ aim (some window) gap < gap.2 := by
  rw [aim_some hword]
  unfold frames
  split <;> omega

end RunSchedule

import Mathlib.Data.List.Pairwise
import Mathlib.Data.Set.Basic
import Mathlib.Order.MinMax
import Mathlib.Tactic.Tauto

/-! Sets of half-open runs kept as a canonical list: nonempty runs in ascending order, no two
touching. Insertion coalesces; `gaps` lists what a range misses, in ascending order. -/
namespace RangeRuns

variable {α : Type*} [LinearOrder α]

def Canonical (runs : List (α × α)) : Prop :=
  (∀ r ∈ runs, r.1 < r.2) ∧ runs.Pairwise fun r s => r.2 < s.1

@[ext] structure RangeSet (α : Type*) [LinearOrder α] where
  runs : List (α × α)
  canonical : Canonical runs

def insertRun (a b : α) : List (α × α) → List (α × α)
  | [] => [(a, b)]
  | (c, d) :: rest =>
    if d < a then (c, d) :: insertRun a b rest
    else if b < c then (a, b) :: (c, d) :: rest
    else insertRun (min a c) (max b d) rest

def gapsFrom (last : α) : α → List (α × α) → List (α × α)
  | first, [] => if first < last then [(first, last)] else []
  | first, (c, d) :: rest =>
    if d ≤ first then gapsFrom last first rest
    else (if first < min c last then [(first, min c last)] else []) ++
      (if d < last then gapsFrom last d rest else [])

/-- The values some run holds. -/
def Held (runs : List (α × α)) : Set α := {x | ∃ r ∈ runs, r.1 ≤ x ∧ x < r.2}

theorem held_nil : Held ([] : List (α × α)) = ∅ := by
  ext x
  simp [Held]

theorem mem_held_cons {x c d : α} {rest : List (α × α)} :
    x ∈ Held ((c, d) :: rest) ↔ (c ≤ x ∧ x < d) ∨ x ∈ Held rest := by
  simp [Held]

theorem mem_held_insertRun {a b x : α} {runs : List (α × α)} :
    x ∈ Held (insertRun a b runs) ↔ (a ≤ x ∧ x < b) ∨ x ∈ Held runs := by
  induction runs generalizing a b with
  | nil => simp [insertRun, Held]
  | cons r rest ih =>
    obtain ⟨c, d⟩ := r
    simp only [insertRun]
    split
    · rw [mem_held_cons, ih, mem_held_cons]
      tauto
    · next hda =>
      split
      · rw [mem_held_cons]
      · next hbc =>
        rw [ih, mem_held_cons, min_le_iff, lt_max_iff]
        rw [not_lt] at hda hbc
        constructor
        · rintro (⟨h1, h2⟩ | h)
          · rcases lt_or_ge x b with hb | hb
            · by_cases ha : a ≤ x
              · exact Or.inl ⟨ha, hb⟩
              · have hxd : x < d := lt_of_lt_of_le (not_le.mp ha) hda
                exact Or.inr (Or.inl ⟨h1.resolve_left ha, hxd⟩)
            · exact Or.inr (Or.inl ⟨hbc.trans hb, h2.resolve_left (not_lt.mpr hb)⟩)
          · exact Or.inr (Or.inr h)
        · rintro (⟨h1, h2⟩ | ⟨h1, h2⟩ | h)
          · exact Or.inl ⟨Or.inl h1, Or.inl h2⟩
          · exact Or.inl ⟨Or.inr h1, Or.inr h2⟩
          · exact Or.inr h

theorem insertRun_above {a b e : α} {runs : List (α × α)} (ha : e < a)
    (hr : ∀ r ∈ runs, e < r.1) : ∀ r ∈ insertRun a b runs, e < r.1 := by
  induction runs generalizing a b with
  | nil => simpa [insertRun] using ha
  | cons r rest ih =>
    obtain ⟨c, d⟩ := r
    have hc : e < c := hr (c, d) (by simp)
    have hrest : ∀ r ∈ rest, e < r.1 := fun r h => hr r (by simp [h])
    simp only [insertRun]
    split
    · intro r h
      rcases List.mem_cons.mp h with rfl | h
      · exact hc
      · exact ih ha hrest r h
    · split
      · intro r h
        rcases List.mem_cons.mp h with rfl | h
        · exact ha
        · exact hr r h
      · exact ih (lt_min ha hc) hrest

theorem insertRun_bounded {a b e : α} {runs : List (α × α)} (hb : b < e)
    (hr : ∀ r ∈ runs, r.2 < e) : ∀ r ∈ insertRun a b runs, r.2 < e := by
  induction runs generalizing a b with
  | nil => simpa [insertRun] using hb
  | cons r rest ih =>
    obtain ⟨c, d⟩ := r
    have hd : d < e := hr (c, d) (by simp)
    have hrest : ∀ r ∈ rest, r.2 < e := fun r h => hr r (by simp [h])
    simp only [insertRun]
    split
    · intro r h
      rcases List.mem_cons.mp h with rfl | h
      · exact hd
      · exact ih hb hrest r h
    · split
      · intro r h
        rcases List.mem_cons.mp h with rfl | h
        · exact hb
        · exact hr r h
      · exact ih (max_lt hb hd) hrest

theorem insertRun_past {a b : α} {runs : List (α × α)} (h : ∀ r ∈ runs, r.2 < a) :
    insertRun a b runs = runs ++ [(a, b)] := by
  induction runs with
  | nil => rfl
  | cons r rest ih =>
    obtain ⟨c, d⟩ := r
    have hd : d < a := h (c, d) (by simp)
    simp only [insertRun, if_pos hd, List.cons_append]
    rw [ih fun r hr => h r (by simp [hr])]

theorem Canonical.tail {r : α × α} {rest : List (α × α)} (h : Canonical (r :: rest)) :
    Canonical rest :=
  ⟨fun x hx => h.1 x (List.mem_cons_of_mem r hx), (List.pairwise_cons.mp h.2).2⟩

theorem insertRun_canonical {a b : α} {runs : List (α × α)} (hab : a < b)
    (h : Canonical runs) : Canonical (insertRun a b runs) := by
  induction runs generalizing a b with
  | nil => simp [insertRun, Canonical, hab]
  | cons r rest ih =>
    obtain ⟨c, d⟩ := r
    have hcd : c < d := h.1 (c, d) (by simp)
    obtain ⟨habove, _⟩ := List.pairwise_cons.mp h.2
    simp only [insertRun]
    split
    · next hda =>
      obtain ⟨hne, hpw⟩ := ih hab h.tail
      refine ⟨?_, List.pairwise_cons.mpr ⟨insertRun_above hda habove, hpw⟩⟩
      intro r hr
      rcases List.mem_cons.mp hr with rfl | hr
      · exact hcd
      · exact hne r hr
    · split
      · next hbc =>
        refine ⟨?_, List.pairwise_cons.mpr ⟨?_, h.2⟩⟩
        · intro r hr
          rcases List.mem_cons.mp hr with rfl | hr
          · exact hab
          · exact h.1 r hr
        · intro r hr
          rcases List.mem_cons.mp hr with rfl | hr
          · exact hbc
          · exact (hbc.trans hcd).trans (habove r hr)
      · exact ih (lt_of_le_of_lt (min_le_left _ _) (lt_max_of_lt_left hab)) h.tail

/-- A run leaves no gap before it in a range when it starts at the range's first point or before,
or past its last. -/
theorem run_start_le {last first c x : α} (hgap : ¬ first < min c last) (h1 : first ≤ x)
    (h2 : x < last) : c ≤ x := by
  rw [not_lt, min_le_iff] at hgap
  rcases hgap with hm | hm
  · exact hm.trans h1
  · exact absurd (hm.trans h1) (not_le.mpr h2)

theorem Canonical.lt_of_mem {c d x : α} {rest : List (α × α)} (h : Canonical ((c, d) :: rest))
    (hx : x ∈ Held rest) : d < x := by
  obtain ⟨r, hr, hle, _⟩ := hx
  exact lt_of_lt_of_le ((List.pairwise_cons.mp h.2).1 r hr) hle

/-- The gaps of a range are empty exactly when the runs hold the whole range. -/
theorem gapsFrom_eq_nil {last first : α} {runs : List (α × α)} (h : Canonical runs) :
    gapsFrom last first runs = [] ↔ ∀ x, first ≤ x → x < last → x ∈ Held runs := by
  induction runs generalizing first with
  | nil =>
    rw [gapsFrom, held_nil]
    split
    · next hlt =>
      simp only [List.cons_ne_nil, Set.mem_empty_iff_false, false_iff]
      exact fun hall => hall first le_rfl hlt
    · next hge =>
      simp only [true_iff]
      intro x h1 h2
      exact absurd (lt_of_le_of_lt h1 h2) hge
  | cons r rest ih =>
    obtain ⟨c, d⟩ := r
    simp only [gapsFrom]
    split
    · next hdf =>
      rw [ih h.tail]
      refine forall_congr' fun x => imp_congr_right fun h1 => imp_congr_right fun h2 => ?_
      rw [mem_held_cons]
      exact ⟨Or.inr, fun hx => hx.resolve_left fun hcx => absurd (hdf.trans h1) (not_le.mpr hcx.2)⟩
    · next hfd =>
      rw [not_le] at hfd
      rw [List.append_eq_nil_iff]
      constructor
      · rintro ⟨hgap, hnext⟩ x h1 h2
        rw [mem_held_cons]
        by_cases hxd : x < d
        · refine Or.inl ⟨?_, hxd⟩
          split at hgap
          · contradiction
          · next hmin => exact run_start_le hmin h1 h2
        · rw [not_lt] at hxd
          rw [if_pos (lt_of_le_of_lt hxd h2)] at hnext
          exact Or.inr ((ih h.tail).mp hnext x hxd h2)
      · intro hall
        constructor
        · split
          · next hmin =>
            obtain ⟨hfc, hfl⟩ := lt_min_iff.mp hmin
            rcases mem_held_cons.mp (hall first le_rfl hfl) with hx | hx
            · exact absurd hx.1 (not_le.mpr hfc)
            · exact absurd (h.lt_of_mem hx) (not_lt.mpr hfd.le)
          · rfl
        · split
          · refine (ih h.tail).mpr fun x h1 h2 => ?_
            rcases mem_held_cons.mp (hall x (hfd.le.trans h1) h2) with hx | hx
            · exact absurd h1 (not_le.mpr hx.2)
            · exact hx
          · rfl

/-- A nonempty range is held point by point exactly when one run holds it whole. -/
theorem held_iff_one_run {a b : α} {runs : List (α × α)} (h : Canonical runs) (hab : a < b) :
    (∀ x, a ≤ x → x < b → x ∈ Held runs) ↔ ∃ r ∈ runs, r.1 ≤ a ∧ b ≤ r.2 := by
  constructor
  · intro hall
    obtain ⟨r, hr, hra, har⟩ := hall a le_rfl hab
    refine ⟨r, hr, hra, ?_⟩
    by_contra hb
    rw [not_le] at hb
    obtain ⟨s, hs, hsr, hrs⟩ := hall r.2 har.le hb
    obtain ⟨i, hi, rfl⟩ := List.getElem_of_mem hr
    obtain ⟨j, hj, rfl⟩ := List.getElem_of_mem hs
    have hapart := List.pairwise_iff_getElem.mp h.2
    rcases Nat.lt_trichotomy i j with hij | rfl | hij
    · exact absurd hsr (not_le.mpr (hapart i j hi hj hij))
    · exact absurd hrs (lt_irrefl _)
    · exact absurd (hrs.trans ((hapart j i hj hi hij).trans_le hra)) (not_lt.mpr har.le)
  · rintro ⟨r, hr, hra, hbr⟩ x hx hxb
    exact ⟨r, hr, hra.trans hx, hxb.trans_le hbr⟩

namespace RangeSet

def empty : RangeSet α := ⟨[], by simp [Canonical]⟩

/-- Adds a run; an empty one changes nothing. -/
def insert (s : RangeSet α) (a b : α) : RangeSet α :=
  if h : a < b then ⟨insertRun a b s.runs, insertRun_canonical h s.canonical⟩ else s

def gaps (s : RangeSet α) (a b : α) : List (α × α) := gapsFrom b a s.runs

instance : Membership α (RangeSet α) := ⟨fun s x => x ∈ Held s.runs⟩

instance : DecidableEq (RangeSet α) := fun s t => decidable_of_iff (s.runs = t.runs) RangeSet.ext_iff.symm

@[simp] theorem not_mem_empty (x : α) : x ∉ (empty : RangeSet α) := by
  change x ∉ Held []
  rw [held_nil]
  exact Set.notMem_empty x

theorem mem_insert {s : RangeSet α} {a b x : α} : x ∈ s.insert a b ↔ (a ≤ x ∧ x < b) ∨ x ∈ s := by
  simp only [insert]
  split
  · exact mem_held_insertRun
  · next hab =>
    refine ⟨Or.inr, fun h => h.resolve_left fun hx => hab (lt_of_le_of_lt hx.1 hx.2)⟩

theorem gaps_eq_nil {s : RangeSet α} {a b : α} :
    s.gaps a b = [] ↔ ∀ x, a ≤ x → x < b → x ∈ s := gapsFrom_eq_nil s.canonical

end RangeSet

end RangeRuns

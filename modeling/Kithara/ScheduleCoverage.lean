import Kithara.RunSchedule

/-! What the schedule gives a pass: a run it places starts inside the extent at a position that is
not barren and reads a frame nothing covers, it places none only when there is none to place, and
runs put where it says cover any extent within four for each window and one for each gap. -/
namespace RunSchedule

open RangeRuns UncoveredStarts
open CheckedArithmetic (divCeil le_divCeil mul_lt_of_lt_divCeil)

variable {s : Schedule} {coverage : RangeSet ℕ} {extent window : ℕ}

/-- A run from here, clipped to the extent, reads a frame that nothing covers yet. -/
def Adds (coverage : RangeSet ℕ) (extent window position : ℕ) : Prop :=
  ∃ x, position ≤ x ∧ x < min (position + window) extent ∧ x ∉ coverage

def Covered (coverage : RangeSet ℕ) (extent : ℕ) : Prop := ∀ x < extent, x ∈ coverage

def Exhausted (s : Schedule) (coverage : RangeSet ℕ) (extent window : ℕ) : Prop :=
  (∀ identity < divCeil extent window, Untouched coverage extent window identity →
    identity * window ∈ s.barren) ∧
  ∀ gap ∈ coverage.gaps 0 extent, aim (some window) gap ∈ s.barren

theorem gap_word {gap : ℕ × ℕ} (hword : extent ≤ u64Max) (h : gap ∈ coverage.gaps 0 extent) :
    gap.2 ≤ u64Max :=
  (RangeSet.gap_of_mem h).below.trans hword

theorem Covered.exhausted (hw : 0 < window) (h : Covered coverage extent) :
    Exhausted s coverage extent window := by
  constructor
  · intro identity hlt hfree
    have hin := mul_lt_of_lt_divCeil hlt
    exact absurd (h _ hin) (hfree _ le_rfl (by omega))
  · intro gap hgap
    rw [RangeSet.gaps_eq_nil.mpr fun x _ hx => h x hx] at hgap
    exact absurd hgap List.not_mem_nil

theorem next_some (s : Schedule) (coverage : RangeSet ℕ) {steps : ℕ} (hword : extent ≤ u64Max)
    (hw : 0 < window) (hsteps : 64 ≤ steps) :
    ∃ choice, s.next steps coverage (some extent) (some window) = .ok choice ∧
      (∀ position ∈ choice, position < extent ∧ position ∉ s.barren ∧
        Adds coverage extent window position) ∧
      (choice = none ↔ Exhausted s coverage extent window) := by
  obtain ⟨visits, hvisits, hnext⟩ := Schedule.next_ok s coverage hword hw hsteps
  refine ⟨_, hnext, ?_, ?_⟩
  · intro position hposition
    rcases Option.or_eq_some_iff.mp hposition with hoffer | ⟨_, htarget⟩
    · obtain ⟨identity, hmem, hoffer⟩ := List.exists_of_findSome?_eq_some hoffer
      have hlt := (hvisits identity).mp hmem
      have hin := mul_lt_of_lt_divCeil hlt
      obtain ⟨rfl, hbarren, hfree⟩ := (Schedule.offer_eq_some hw hlt).mp hoffer
      exact ⟨hin, hbarren, _, le_rfl, by omega, hfree _ le_rfl (by omega)⟩
    · obtain ⟨hbarren, gap, hmem, rfl, _⟩ := Schedule.gapTarget_eq_some htarget
      have hgap := RangeSet.gap_of_mem hmem
      obtain ⟨hle, hlt⟩ := aim_inside (gap_word hword hmem) hgap.nonempty hw
      have hin := hlt.trans_le hgap.below
      exact ⟨hin, hbarren, _, le_rfl, by omega, hgap.missed _ hle hlt⟩
  · rw [Option.or_eq_none_iff, List.findSome?_eq_none_iff, Schedule.gapTarget_eq_none]
    refine and_congr_left fun _ => ?_
    constructor
    · intro hnone identity hlt
      exact (Schedule.offer_eq_none hw hlt).mp (hnone identity ((hvisits identity).mpr hlt))
    · intro hbarren identity hmem
      have hlt := (hvisits identity).mp hmem
      exact (Schedule.offer_eq_none hw hlt).mpr (hbarren identity hlt)

noncomputable def work (coverage : RangeSet ℕ) (extent window : ℕ) : ℕ :=
  remaining coverage.values extent window (divCeil extent window)

theorem work_le (hw : 0 < window) :
    work coverage extent window ≤ 4 * divCeil extent window + (coverage.gaps 0 extent).length := by
  rw [← card_openings]
  exact remaining_le hw (le_divCeil hw)

theorem work_choice {steps position : ℕ} (hword : extent ≤ u64Max) (hw : 0 < window)
    (hsteps : 64 ≤ steps)
    (h : (⟨∅⟩ : Schedule).next steps coverage (some extent) (some window) = .ok (some position)) :
    work (coverage.insert position (position + window)) extent window <
      work coverage extent window := by
  obtain ⟨visits, hvisits, hnext⟩ :=
    Schedule.next_ok ⟨∅⟩ coverage hword hw hsteps
  rw [h, Except.ok.injEq] at hnext
  unfold work
  rw [values_insert]
  rcases Option.or_eq_some_iff.mp hnext.symm with hoffer | ⟨hoffers, htarget⟩
  · obtain ⟨identity, hmem, hoffer⟩ := List.exists_of_findSome?_eq_some hoffer
    have hlt := (hvisits identity).mp hmem
    obtain ⟨rfl, _, hfree⟩ := (Schedule.offer_eq_some hw hlt).mp hoffer
    exact remaining_fill hw (le_divCeil hw) (mul_lt_of_lt_divCeil hlt)
      (mem_vacant.mpr ⟨hlt, hfree⟩)
  · obtain ⟨_, gap, hmem, rfl, _⟩ := Schedule.gapTarget_eq_some htarget
    have hgap := RangeSet.gap_of_mem hmem
    have hempty : vacant coverage.values extent window (divCeil extent window) = ∅ := by
      refine Finset.eq_empty_of_forall_notMem fun identity hvacant => ?_
      obtain ⟨hlt, hfree⟩ := mem_vacant.mp hvacant
      have hnone := List.findSome?_eq_none_iff.mp hoffers identity ((hvisits identity).mpr hlt)
      exact absurd ((Schedule.offer_eq_none hw hlt).mp hnone hfree) (Finset.notMem_empty _)
    rw [aim_some (gap_word hword hmem)]
    split
    · next hlong =>
      unfold frames at hlong ⊢
      exact remaining_split hw (le_divCeil hw) hempty hgap.opens_at hgap.below hgap.free (by omega)
    · next hshort =>
      unfold frames at hshort
      exact remaining_close hempty hgap.opens_at hgap.nonempty hgap.below hgap.closes (by omega)

/-- Runs placed one after another, none of them barren, and the coverage they leave. -/
inductive Placed (steps extent window : ℕ) : RangeSet ℕ → List ℕ → RangeSet ℕ → Prop
  | stop (coverage : RangeSet ℕ) : Placed steps extent window coverage [] coverage
  | choose {coverage covered : RangeSet ℕ} {position : ℕ} {positions : List ℕ} :
      (⟨∅⟩ : Schedule).next steps coverage (some extent) (some window) = .ok (some position) →
      Placed steps extent window (coverage.insert position (position + window)) positions covered →
      Placed steps extent window coverage (position :: positions) covered

theorem Placed.work_le {steps : ℕ} {covered : RangeSet ℕ} {positions : List ℕ}
    (h : Placed steps extent window coverage positions covered) (hword : extent ≤ u64Max)
    (hw : 0 < window) (hsteps : 64 ≤ steps) :
    positions.length + work covered extent window ≤ work coverage extent window := by
  induction h with
  | stop => simp
  | choose hnext _ ih =>
    have := work_choice hword hw hsteps hnext
    rw [List.length_cons]
    omega

theorem exists_placed {steps : ℕ} (hword : extent ≤ u64Max) (hw : 0 < window)
    (hsteps : 64 ≤ steps) (coverage : RangeSet ℕ) :
    ∃ positions covered, Placed steps extent window coverage positions covered ∧
      Covered covered extent ∧
      (⟨∅⟩ : Schedule).next steps covered (some extent) (some window) = .ok none := by
  induction hleft : work coverage extent window using Nat.strong_induction_on
    generalizing coverage with
  | _ left ih =>
    obtain ⟨choice, hnext, _, hnone⟩ := next_some ⟨∅⟩ coverage hword hw hsteps
    cases choice with
    | none =>
      refine ⟨[], coverage, .stop _, fun x hx => ?_, hnext⟩
      by_contra hmiss
      obtain ⟨gap, hgap, _⟩ := RangeSet.exists_gap (Nat.zero_le x) hx hmiss
      exact absurd ((hnone.mp rfl).2 gap hgap) (Finset.notMem_empty _)
    | some position =>
      obtain ⟨positions, covered, hplaced, hcovered⟩ :=
        ih _ (hleft ▸ work_choice hword hw hsteps hnext) _ rfl
      exact ⟨position :: positions, covered, .choose hnext hplaced, hcovered⟩

/-- The schedule for every coverage, extent, window and set of barren positions: it answers, and a
position only where a run adds a frame and may start; without one there is nothing left to choose;
the regions' midpoints are windows of the extent; and runs placed one after another cover it. -/
theorem schedule_covers (s : Schedule) (coverage : RangeSet ℕ) (extent : Option ℕ)
    {window steps : ℕ} (hextent : ∀ frames ∈ extent, frames ≤ u64Max) (hw : 0 < window)
    (hsteps : 64 ≤ steps) :
    (∃ choice, s.next steps coverage extent (some window) = .ok choice ∧
      (∀ position ∈ choice, ∃ frames ∈ extent, position < frames ∧ position ∉ s.barren ∧
        Adds coverage frames window position) ∧
      (choice = none ↔ extent = none ∨ ∃ frames ∈ extent,
        Covered coverage frames ∨ Exhausted s coverage frames window)) ∧
    (∀ identities regions region, identities ≤ u64Max → region < regions → regions < identities →
      ∃ identity < identities, regionMidpoint identities regions region = .ok identity) ∧
    ∀ frames ∈ extent,
      (∃ positions covered, Placed steps frames window coverage positions covered ∧
        Covered covered frames ∧
        (⟨∅⟩ : Schedule).next steps covered extent (some window) = .ok none) ∧
      ∀ positions covered, Placed steps frames window coverage positions covered →
        positions.length ≤ 4 * divCeil frames window + (coverage.gaps 0 frames).length := by
  refine ⟨?_, fun identities regions region => regionMidpoint_ok, ?_⟩
  · cases extent with
    | none => exact ⟨none, rfl, by simp, by simp⟩
    | some extent =>
      obtain ⟨choice, hnext, hsome, hnone⟩ := next_some s coverage (hextent extent rfl) hw hsteps
      refine ⟨choice, hnext, fun position hp => ⟨extent, rfl, hsome position hp⟩, ?_⟩
      rw [hnone]
      constructor
      · exact fun h => Or.inr ⟨extent, rfl, Or.inr h⟩
      · rintro (h | ⟨frames, hframes, h | h⟩)
        · cases h
        · cases hframes
          exact h.exhausted hw
        · cases hframes
          exact h
  · intro frames hframes
    obtain rfl := hframes
    have hword := hextent frames rfl
    refine ⟨exists_placed hword hw hsteps coverage, fun positions covered hplaced => ?_⟩
    have := hplaced.work_le hword hw hsteps
    exact (Nat.le_add_right ..).trans (this.trans (work_le hw))

theorem schedule_covers_track :
    (∃ positions covered, Placed 64 1000 200 RangeSet.empty positions covered ∧
      Covered covered 1000) ∧
    ∀ positions covered, Placed 64 1000 200 RangeSet.empty positions covered →
      positions.length ≤ 21 := by
  have hextent : ∀ frames ∈ some 1000, frames ≤ u64Max := by
    rintro _ ⟨⟩
    decide
  obtain ⟨_, _, hplaced⟩ := @schedule_covers ⟨∅⟩ RangeSet.empty (some 1000) 200 64
    hextent (by decide) (by decide)
  obtain ⟨⟨positions, covered, h, hcovered, _⟩, hbound⟩ := hplaced 1000 rfl
  exact ⟨⟨positions, covered, h, hcovered⟩, hbound⟩

end RunSchedule

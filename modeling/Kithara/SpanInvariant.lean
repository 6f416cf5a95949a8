import Kithara.SpanGeometry
import Mathlib.Data.Nat.Cast.Order.Field
import Mathlib.Data.Rat.Floor
import Mathlib.Algebra.Order.Floor.Semifield

/-! The mapping invariant of validated spans: every output frame has a source position whose
frame fits 64 bits, positions never go back, and both endpoints are present. -/
namespace SpanInvariant

open CheckedArithmetic SpanRatio SpanAffine SpanMapping SpanGeometry ArithmeticProgression

variable {C : Type} [ExponentialApproach C] {s : SourceSpan C} {m : Rational}

/-- Validation evaluates the last advance and both endpoints, and no more. -/
theorem validate_rational {N : ℕ} :
    (Mapping.rational m : Mapping C).validate N = some () ↔ Progress m N ∧
      m.numerator / m.denominator < 2 ^ 64 ∧
      ∀ n, m.numeratorAt N = some n → n / m.denominator < 2 ^ 64 := by
  have frame {n : ℕ} : (∃ f r, Ratio.new n m.denominator = some r ∧ r.sourceFrame = some f) ↔
      n / m.denominator < 2 ^ 64 := by
    constructor
    · rintro ⟨f, r, hr, hf⟩
      rw [← new_div hr, (sourceFrame_eq_some.mp hf).1]
      exact (sourceFrame_eq_some.mp hf).2
    · intro hlt
      obtain ⟨r, hr⟩ := new_isSome n m.denominator
      exact ⟨_, r, hr, sourceFrame_eq_some.mpr ⟨new_div hr, hlt⟩⟩
  have step : (Mapping.rational m : Mapping C).lastStep N = some () ↔
      (0 < N → ∃ l, m.stepAt (N - 1) = some l) := by
    by_cases hN : 0 < N <;> simp [Mapping.lastStep, hN]
  simp only [Mapping.validate, Mapping.ratioAt, Option.bind_eq_bind, Option.bind_eq_some_iff]
  constructor
  · rintro ⟨_, hstep, r, ⟨n, hn, hr⟩, f, hf, q, ⟨e, he, hq⟩, g, hg, _⟩
    have hzero : n = m.numerator := by
      have := (numeratorAt_eq_some.mp hn).2.2.2.2.2.1
      rw [progression_value_zero] at this
      exact_mod_cast this
    refine ⟨progress_of_ends he (step.mp hstep), hzero ▸ frame.mp ⟨f, r, hr, hf⟩, ?_⟩
    intro k hk
    obtain rfl : e = k := Option.some.inj (he.symm.trans hk)
    exact frame.mp ⟨g, q, hq, hg⟩
  · rintro ⟨hp, hfirst, hlast⟩
    obtain ⟨e, he, _⟩ := hp.numeratorAt
    obtain ⟨n, hn, hnv⟩ := hp.interior (Nat.zero_le N)
    have hzero : n = m.numerator := by
      rw [progression_value_zero] at hnv
      exact_mod_cast hnv
    obtain ⟨f, r, hr, hf⟩ := frame.mpr (hzero ▸ hfirst : n / (m.denominator : ℕ) < 2 ^ 64)
    obtain ⟨g, q, hq, hg⟩ := frame.mpr (hlast e he)
    have hlastStep := step.mpr fun hN => (hp.stepAt (a := N - 1) (by omega)).imp fun _ h => h.1
    exact ⟨(), hlastStep, r, ⟨n, hn, hr⟩, f, hf, q, ⟨e, he, hq⟩, g, hg, rfl⟩

/-- The progression constructor accepts exactly the coefficients its validation accepts. -/
theorem ofProgression_eq_some {start step : ℕ} {stepChange : ℤ} {denominator rate : ℕ+}
    {frames : ℕ} :
    SourceSpan.ofProgression start step stepChange denominator rate frames = some s ↔
      0 < frames ∧ Progress ⟨start, denominator, step, stepChange⟩ frames ∧
        start / denominator < 2 ^ 64 ∧
        (∀ n, (⟨start, denominator, step, stepChange⟩ : Rational).numeratorAt frames = some n →
          n / denominator < 2 ^ 64) ∧
        s = ⟨rate, none, .rational ⟨start, denominator, step, stepChange⟩, frames, 0⟩ := by
  by_cases hf : frames = 0
  · simp [SourceSpan.ofProgression, hf]
  · simp only [SourceSpan.ofProgression, if_neg hf, Option.bind_eq_bind, Option.bind_eq_some_iff,
      Option.pure_def, Option.some.injEq]
    constructor
    · rintro ⟨u, hu, rfl⟩
      obtain ⟨hp, hfirst, hlast⟩ := validate_rational.mp hu
      exact ⟨Nat.pos_of_ne_zero hf, hp, hfirst, hlast, rfl⟩
    · rintro ⟨_, hp, hfirst, hlast, rfl⟩
      exact ⟨(), validate_rational.mpr ⟨hp, hfirst, hlast⟩, rfl⟩

section Positions

variable (hv : Validated s) (hm : s.mapping = .rational m)
include hv hm

theorem validated_progress : Progress m s.outputFrames := by
  have h := hv.valid
  rw [hm] at h
  exact (validate_rational.mp h).1

theorem last_fits {n : ℕ} (hn : m.numeratorAt s.outputFrames = some n) :
    n / m.denominator < 2 ^ 64 := by
  have h := hv.valid
  rw [hm] at h
  exact (validate_rational.mp h).2.2 n hn

theorem sourceRatioAt_eq {f : ℕ} (hf : f ≤ s.outputFrames) :
    ∃ n r, m.numeratorAt f = some n ∧ (n : ℤ) = m.progression.value f ∧
      Ratio.new n m.denominator = some r ∧ s.sourceRatioAt f = some r := by
  obtain ⟨n, hn, hnv⟩ := (validated_progress hv hm).interior hf
  obtain ⟨r, hr⟩ := new_isSome n m.denominator
  refine ⟨n, r, hn, hnv, hr, ?_⟩
  simp [SourceSpan.sourceRatioAt, hm, Mapping.ratioAt, hn, hr, Nat.not_lt.mpr hf]

theorem sourceRatioAt_position {f : ℕ} (hf : f ≤ s.outputFrames) :
    ∃ r, s.sourceRatioAt f = some r ∧ r.toRat = m.position f := by
  obtain ⟨n, r, _, hnv, hr, hs⟩ := sourceRatioAt_eq hv hm hf
  refine ⟨r, hs, ?_⟩
  rw [new_toRat hr, Rational.position, ← hnv, Int.cast_natCast]

theorem position_le {f g : ℕ} (hfg : f ≤ g) (hg : g ≤ s.outputFrames) :
    m.position f ≤ m.position g := by
  have hd : (0 : ℚ) < (m.denominator : ℕ) := Nat.cast_pos.mpr m.denominator.pos
  refine (div_le_div_iff_of_pos_right hd).mpr (Int.cast_le.mpr ?_)
  exact (validated_progress hv hm).value_le hfg hg

omit hv hm in
theorem sourceRatioAt_within {f : ℕ} {r : Ratio} (hr : s.sourceRatioAt f = some r) :
    f ≤ s.outputFrames := by
  by_contra hgt
  rw [SourceSpan.sourceRatioAt, if_pos (by omega)] at hr
  contradiction

theorem sourceRatioAt_le {f g : ℕ} {r q : Ratio} (hfg : f ≤ g) (hr : s.sourceRatioAt f = some r)
    (hq : s.sourceRatioAt g = some q) : r.toRat ≤ q.toRat := by
  have hg : g ≤ s.outputFrames := sourceRatioAt_within hq
  obtain ⟨r', hr', hrv⟩ := sourceRatioAt_position hv hm (hfg.trans hg)
  obtain ⟨q', hq', hqv⟩ := sourceRatioAt_position hv hm hg
  obtain rfl : r' = r := Option.some.inj (hr'.symm.trans hr)
  obtain rfl : q' = q := Option.some.inj (hq'.symm.trans hq)
  rw [hrv, hqv]
  exact position_le hv hm hfg hg

theorem sourceFrame_isSome {f : ℕ} {r : Ratio} (hr : s.sourceRatioAt f = some r) :
    ∃ frame, r.sourceFrame = some frame := by
  have hf : f ≤ s.outputFrames := sourceRatioAt_within hr
  obtain ⟨n, r', hn, hnv, hnew, hr'⟩ := sourceRatioAt_eq hv hm hf
  obtain rfl : r' = r := Option.some.inj (hr'.symm.trans hr)
  obtain ⟨e, he, hev⟩ := (validated_progress hv hm).numeratorAt
  have hne : n ≤ e := by
    have := (validated_progress hv hm).value_le hf le_rfl
    omega
  have hlast := last_fits hv hm he
  refine ⟨_, sourceFrame_eq_some.mpr ⟨new_div hnew, ?_⟩⟩
  calc n / (m.denominator : ℕ) ≤ e / m.denominator := Nat.div_le_div_right hne
    _ < 2 ^ 64 := hlast

end Positions

theorem sourceFrame_floor {r : Ratio} {frame : ℕ} (h : r.sourceFrame = some frame) :
    ⌊r.toRat⌋₊ = frame := by
  rw [Ratio.toRat, Nat.floor_div_eq_div]
  exact (sourceFrame_eq_some.mp h).1

theorem sourceRatioAt_inside {f : ℕ} (hf : f ≤ s.outputFrames) :
    s.sourceRatioAt f = s.mapping.ratioAt f := by
  rw [SourceSpan.sourceRatioAt, if_neg (by omega)]

/-- Every frame of a reachable rational span has a position in range, positions never go back,
and the endpoint accessors never reach their unreachable branch. -/
theorem reachable_positions_ordered {s : SourceSpan C} {m : Rational} (hs : Reachable s)
    (hm : s.mapping = .rational m) :
    (∀ f, f ≤ s.outputFrames → ∃ r, s.sourceRatioAt f = some r ∧ ⌊r.toRat⌋₊ < 2 ^ 64) ∧
      (∀ f g r q, f ≤ g → s.sourceRatioAt f = some r → s.sourceRatioAt g = some q →
        r.toRat ≤ q.toRat) ∧
      ∃ first last, s.start = some first ∧ s.finish = some last ∧ first ≤ last := by
  have hv := reachable_validated hs
  have ordered : ∀ f g r q, f ≤ g → s.sourceRatioAt f = some r → s.sourceRatioAt g = some q →
      r.toRat ≤ q.toRat := fun f g r q hfg hr hq => sourceRatioAt_le hv hm hfg hr hq
  refine ⟨?_, ordered, ?_⟩
  · intro f hf
    obtain ⟨r, hr, _⟩ := sourceRatioAt_position hv hm hf
    obtain ⟨frame, hframe⟩ := sourceFrame_isSome hv hm hr
    refine ⟨r, hr, ?_⟩
    rw [sourceFrame_floor hframe]
    exact (sourceFrame_eq_some.mp hframe).2
  · obtain ⟨r, hr, _⟩ := sourceRatioAt_position hv hm (Nat.zero_le _)
    obtain ⟨q, hq, _⟩ := sourceRatioAt_position hv hm le_rfl
    obtain ⟨first, hfirst⟩ := sourceFrame_isSome hv hm hr
    obtain ⟨last, hlast⟩ := sourceFrame_isSome hv hm hq
    refine ⟨first, last, ?_, ?_, ?_⟩
    · rw [SourceSpan.start, ← sourceRatioAt_inside (Nat.zero_le _), hr]
      exact hfirst
    · rw [SourceSpan.finish, ← sourceRatioAt_inside le_rfl, hq]
      exact hlast
    · rw [← sourceFrame_floor hfirst, ← sourceFrame_floor hlast]
      exact Nat.floor_le_floor (ordered _ _ _ _ (Nat.zero_le _) hr hq)

/-- Four frames whose advances fall from two frames to one half. -/
def slowing : Rational := ⟨0, Nat.succPNat 1, 4, -1⟩

def slowingSpan : SourceSpan SteadyRate := ⟨48000, none, .rational slowing, 4, 0⟩

theorem slowing_reachable : Reachable slowingSpan := by
  have hlast : slowing.numeratorAt 4 = some 10 := by decide
  have h : SourceSpan.ofProgression 0 4 (-1) 2 48000 4 =
      some slowingSpan := by
    refine ofProgression_eq_some.mpr ⟨by decide, ?_, by decide, ?_, rfl⟩
    · constructor <;> decide
    · intro n hn
      obtain rfl : 10 = n := Option.some.inj (hlast.symm.trans hn)
      decide
  exact .ofProgression (by decide) (by decide) (by decide) (by decide) (by decide) h

theorem slowing_positions_ordered :
    ∃ r, slowingSpan.sourceRatioAt 3 = some r ∧ ⌊r.toRat⌋₊ < 2 ^ 64 :=
  (reachable_positions_ordered slowing_reachable rfl).1 3 (by decide)

end SpanInvariant

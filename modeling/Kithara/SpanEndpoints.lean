import Mathlib.Tactic.LinearCombination
import Kithara.SpanInvariant

/-! The endpoint constructor: the remainder loop is the greatest common divisor, so the reduced
coefficients reach both endpoints exactly and every product stays within 128 bits. -/
namespace SpanEndpoints

open CheckedArithmetic SpanRatio SpanMapping SpanGeometry SpanInvariant ArithmeticProgression

variable {C : Type} [ExponentialApproach C]

theorem euclid_eq_gcd (divisor remainder : ℕ) :
    euclid divisor remainder = Nat.gcd divisor remainder := by
  induction divisor, remainder using euclid.induct with
  | case1 divisor => rw [euclid, dif_pos rfl, Nat.gcd_zero_right]
  | case2 divisor remainder h ih =>
    rw [euclid, dif_neg h, ih, Nat.gcd_comm divisor remainder, Nat.gcd_rec remainder divisor,
      Nat.gcd_comm (divisor % remainder)]

/-- The coefficients of the endpoint constructor, over the reduced frame count. -/
structure Endpoints (start finish frames : ℕ) (m : Rational) : Prop where
  change : m.stepChange = 0
  origin : m.numerator = start * m.denominator
  advance : m.step * frames = m.denominator * (finish - start)

theorem new_whole (n : ℕ) (d : ℕ+) : Ratio.new (n * d) d = some ⟨n, nonZeroMin⟩ := by
  have hone : Ratio.new n nonZeroMin = some ⟨n, nonZeroMin⟩ := by
    obtain ⟨r, hr, hnum, hden⟩ := new_eq n nonZeroMin
    have hgcd : Nat.gcd n (nonZeroMin : ℕ) = 1 := Nat.gcd_one_right n
    rw [hgcd, Nat.div_one] at hnum hden
    rw [hr]
    exact congrArg some (Ratio.ext hnum (PNat.eq hden))
  rw [← hone]
  refine new_congr ?_
  show n * d * 1 = n * d
  rw [Nat.mul_one]

section Accepted

variable {start finish frames : ℕ} {m : Rational} (h : Endpoints start finish frames m)
include h

theorem endpoints_value (hle : start ≤ finish) :
    m.progression.value frames = m.denominator * finish := by
  have hadvance : (frames : ℤ) * m.step = m.denominator * (finish - start) := by
    rw [← Nat.cast_sub hle, Int.mul_comm]
    exact_mod_cast h.advance
  have horigin : (m.numerator : ℤ) = start * m.denominator := by exact_mod_cast h.origin
  calc m.progression.value frames
      = m.numerator + frames * m.step + (frames.choose 2 : ℕ) * m.stepChange := rfl
    _ = start * m.denominator + m.denominator * (finish - start) := by
        rw [h.change, hadvance, horigin, mul_zero, add_zero]
    _ = m.denominator * finish := by ring

theorem endpoints_progress (hle : start ≤ finish) (hfinish : finish < 2 ^ 64)
    (hframes : frames < 2 ^ 64) (hden : (m.denominator : ℕ) ≤ frames)
    (hstep : m.step ≤ finish - start) : Progress m frames := by
  have hwide : frames * (frames - 1) < 2 ^ 128 := by
    calc frames * (frames - 1) ≤ 2 ^ 64 * (2 ^ 64 - 1) := Nat.mul_le_mul (by omega) (by omega)
      _ < 2 ^ 128 := by norm_num
  have hsteady : ∀ n, m.progression.stepAt n = m.step := by
    intro n
    show (m.step : ℤ) + n * m.stepChange = m.step
    rw [h.change, mul_zero, add_zero]
  refine ⟨?_, hwide, ?_, ?_, fun _ => ?_, fun _ => ?_, ?_⟩
  · calc m.step * frames ≤ (2 ^ 64 - 1) * (2 ^ 64 - 1) := Nat.mul_le_mul (by omega) (by omega)
      _ < 2 ^ 128 := by norm_num
  · rw [h.change, Int.natAbs_zero, Nat.mul_zero]
    exact Nat.two_pow_pos 128
  · rw [h.change, Int.natAbs_zero, Nat.zero_mul]
    exact Nat.two_pow_pos 128
  · rw [hsteady]
    exact Int.natCast_nonneg m.step
  · rw [hsteady]
    omega
  · rw [endpoints_value h hle]
    have hprod : (m.denominator : ℕ) * finish ≤ (2 ^ 64 - 1) * (2 ^ 64 - 1) :=
      Nat.mul_le_mul (by omega) (by omega)
    have hlt : (m.denominator : ℕ) * finish < 2 ^ 128 := lt_of_le_of_lt hprod (by norm_num)
    exact_mod_cast hlt

theorem endpoints_position (hframes : 0 < frames) (hle : start ≤ finish) (f : ℕ) :
    m.position f = start + ((finish : ℚ) - start) * f / frames := by
  have hd := pnat_ne_zero m.denominator
  have hf : (frames : ℚ) ≠ 0 := Nat.cast_ne_zero.mpr (by omega)
  have hadvance : (m.step : ℚ) * frames = (m.denominator : ℕ) * ((finish : ℚ) - start) := by
    rw [← Nat.cast_sub hle]
    exact_mod_cast h.advance
  have horigin : (m.numerator : ℚ) = start * (m.denominator : ℕ) := by exact_mod_cast h.origin
  have hvalue : ((m.progression.value f : ℤ) : ℚ) = m.numerator + f * m.step := by
    show (((m.numerator : ℤ) + f * m.step + (f.choose 2 : ℕ) * m.stepChange : ℤ) : ℚ) = _
    rw [h.change]
    push_cast
    ring
  rw [Rational.position, hvalue, horigin, div_eq_iff hd]
  field_simp
  linear_combination (f : ℚ) * hadvance

end Accepted

theorem new_reduces (rate : ℕ+) {start finish frames : ℕ} (hle : start ≤ finish)
    (hframes : 0 < frames) :
    ∃ m : Rational, Endpoints start finish frames m ∧ (m.denominator : ℕ) ≤ frames ∧
      m.step ≤ finish - start ∧
      (SourceSpan.new start finish rate frames : Option (SourceSpan C)) =
        SourceSpan.ofProgression m.numerator m.step 0 m.denominator rate frames := by
  have hsource : checkedSub finish start = some (finish - start) := if_pos hle
  have hgcd : 0 < Nat.gcd (finish - start) frames := Nat.gcd_pos_of_pos_right _ hframes
  have hden : 0 < frames / Nat.gcd (finish - start) frames :=
    Nat.div_pos (Nat.gcd_le_right _ hframes) hgcd
  refine ⟨⟨start * (frames / Nat.gcd (finish - start) frames),
    (frames / Nat.gcd (finish - start) frames).toPNat hden,
    (finish - start) / Nat.gcd (finish - start) frames, 0⟩, ⟨rfl, rfl, ?_⟩, Nat.div_le_self _ _,
    Nat.div_le_self _ _, ?_⟩
  · show (finish - start) / Nat.gcd (finish - start) frames * frames =
      frames / Nat.gcd (finish - start) frames * (finish - start)
    rw [← Nat.mul_div_right_comm (Nat.gcd_dvd_left _ _), ← Nat.mul_div_right_comm
      (Nat.gcd_dvd_right _ _), Nat.mul_comm]
  · unfold SourceSpan.new
    simp only [hsource, euclid_eq_gcd, Option.bind_eq_bind, Option.bind_some, if_neg hgcd.ne',
      nonZero_pos hden]
    rfl

/-- Whatever the endpoints, rate and frame count: an ordered, nonempty interval is accepted with
no overflow, starts and ends at its endpoints and advances linearly between them; any other is
refused. -/
theorem new_exact (start finish : ℕ) (rate : ℕ+) (frames : ℕ) (hstart : start < 2 ^ 64)
    (hfinish : finish < 2 ^ 64) (hframes : frames < 2 ^ 64) :
    (start ≤ finish → 0 < frames → ∃ (s : SourceSpan C) (m : Rational),
      SourceSpan.new start finish rate frames = some s ∧ s.mapping = .rational m ∧ m.Wide ∧
        s.outputFrames = frames ∧
        s.sourceRatioAt 0 = some ⟨start, nonZeroMin⟩ ∧
        s.sourceRatioAt frames = some ⟨finish, nonZeroMin⟩ ∧
        s.start = some start ∧ s.finish = some finish ∧
        ∀ f, f ≤ frames → ∃ r, s.sourceRatioAt f = some r ∧
          r.toRat = start + ((finish : ℚ) - start) * f / frames) ∧
      (finish < start ∨ frames = 0 →
        (SourceSpan.new start finish rate frames : Option (SourceSpan C)) = none) := by
  constructor
  · intro hle hpos
    obtain ⟨m, hm, hden, hstep, hnew⟩ := new_reduces (C := C) rate hle hpos
    have hprogress := endpoints_progress hm hle hfinish hframes hden hstep
    have hwhole : ∀ {n}, m.numeratorAt frames = some n → n = finish * m.denominator := by
      intro n hn
      have hvalue := (numeratorAt_eq_some.mp hn).2.2.2.2.2.1
      rw [endpoints_value hm hle, Int.mul_comm] at hvalue
      exact_mod_cast hvalue
    have hmapping : (⟨m.numerator, m.denominator, m.step, 0⟩ : Rational) = m :=
      Rational.ext rfl rfl rfl hm.change.symm
    have hs : (SourceSpan.new start finish rate frames : Option (SourceSpan C)) =
        some ⟨rate, none, .rational m, frames, 0⟩ := by
      rw [hnew]
      refine ofProgression_eq_some.mpr ?_
      rw [hmapping]
      refine ⟨hpos, hprogress, ?_, ?_, rfl⟩
      · rw [hm.origin, Nat.mul_div_cancel _ m.denominator.pos]
        exact hstart
      · intro n hn
        rw [hwhole hn, Nat.mul_div_cancel _ m.denominator.pos]
        exact hfinish
    have hvalidated := new_validated hfinish hframes hs
    have hfirst : (Mapping.rational m : Mapping C).ratioAt 0 = some ⟨start, nonZeroMin⟩ := by
      obtain ⟨n, hn, hnv⟩ := hprogress.interior (Nat.zero_le frames)
      rw [progression_value_zero] at hnv
      obtain rfl : n = start * m.denominator := by
        rw [← hm.origin]
        exact_mod_cast hnv
      simp only [Mapping.ratioAt, hn, Option.bind_eq_bind, Option.bind_some]
      exact new_whole start m.denominator
    have hlast : (Mapping.rational m : Mapping C).ratioAt frames = some ⟨finish, nonZeroMin⟩ := by
      obtain ⟨n, hn, _⟩ := hprogress.numeratorAt
      simp only [Mapping.ratioAt, hn, Option.bind_eq_bind, Option.bind_some, hwhole hn]
      exact new_whole finish m.denominator
    have hframe : ∀ {n : ℕ}, n < 2 ^ 64 →
        Ratio.sourceFrame ⟨n, nonZeroMin⟩ = some n := by
      intro n hn
      exact sourceFrame_eq_some.mpr ⟨Nat.div_one n, hn⟩
    refine ⟨_, m, hs, rfl, hvalidated.wide, rfl, ?_, ?_, ?_, ?_, ?_⟩
    · rw [sourceRatioAt_inside (Nat.zero_le _)]
      exact hfirst
    · rw [sourceRatioAt_inside le_rfl]
      exact hlast
    · show ((Mapping.rational m : Mapping C).ratioAt 0).bind Ratio.sourceFrame = some start
      rw [hfirst, Option.bind_some, hframe hstart]
    · show ((Mapping.rational m : Mapping C).ratioAt frames).bind Ratio.sourceFrame = some finish
      rw [hlast, Option.bind_some, hframe hfinish]
    · intro f hf
      obtain ⟨r, hr, hrv⟩ := sourceRatioAt_position hvalidated rfl hf
      exact ⟨r, hr, hrv.trans (endpoints_position hm hpos hle f)⟩
  · rintro (hlt | rfl)
    · have hnone : checkedSub finish start = none := if_neg (by omega)
      unfold SourceSpan.new
      rw [hnone]
      rfl
    · by_cases hle : start ≤ finish
      · have hsource : checkedSub finish start = some (finish - start) := if_pos hle
        have hzero : ∀ d, nonZero (0 / d) = none := by
          intro d
          rw [Nat.zero_div]
          rfl
        unfold SourceSpan.new
        simp only [hsource, euclid_eq_gcd, Nat.gcd_zero_right, Option.bind_eq_bind,
          Option.bind_some]
        split
        · rfl
        · rw [Option.bind_some, hzero]
          rfl
      · have hnone : checkedSub finish start = none := if_neg hle
        unfold SourceSpan.new
        rw [hnone]
        rfl

theorem new_exact_odd_interval :
    ∃ (s : SourceSpan SteadyRate) (r : Ratio), SourceSpan.new 10 15 48000 4 = some s ∧
      s.sourceRatioAt 1 = some r ∧ r.toRat = 10 + ((15 : ℕ) - (10 : ℕ)) * (1 : ℕ) / (4 : ℕ) := by
  obtain ⟨s, _, hs, _, _, _, _, _, _, _, hpos⟩ :=
    (new_exact (C := SteadyRate) 10 15 48000 4 (by decide) (by decide) (by decide)).1 (by decide)
      (by decide)
  obtain ⟨r, hr, hrv⟩ := hpos 1 (by decide)
  exact ⟨s, r, hs, hr, hrv⟩

end SpanEndpoints

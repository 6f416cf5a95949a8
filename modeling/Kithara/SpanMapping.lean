import Kithara.ArithmeticProgression
import Kithara.SpanAffine

/-! Source positions over output frames: arithmetic progressions of advances in checked
128-bit arithmetic, and exponential approaches rounded to the Q32 lattice. `Progress` is what
an accepted rational mapping provides; every frame, prefix and tail inherits it. -/
namespace SpanMapping

open CheckedArithmetic SpanRatio SpanAffine ArithmeticProgression

@[ext] structure Rational where
  numerator : ℕ
  denominator : ℕ+
  step : ℕ
  stepChange : ℤ
  deriving DecidableEq, Repr

namespace Rational

def stepAt (m : Rational) (frame : ℕ) : Option ℕ := do
  let change ← checkedMul 128 m.stepChange.natAbs frame
  if m.stepChange < 0 then checkedSub m.step change
  else checkedAdd 128 m.step change

def numeratorAt (m : Rational) (frame : ℕ) : Option ℕ := do
  let linear ← checkedMul 128 m.step frame
  let product ← checkedMul 128 frame (frame - 1)
  let change ← checkedMul 128 (product / 2) m.stepChange.natAbs
  let advance ← (if m.stepChange < 0 then checkedSub linear change
    else checkedAdd 128 linear change)
  checkedAdd 128 m.numerator advance

/-- An empty slice of a ramp drops its step: no advance of it is ever taken. -/
def sliced (m : Rational) (start frames : ℕ) : Option Rational := do
  let numerator ← m.numeratorAt start
  let step ← (if frames = 0 ∧ m.stepChange ≠ 0 then some 0 else m.stepAt start)
  pure { m with numerator, step }

def followedBy (m next : Rational) (frames : ℕ) : Option Rational := do
  let step ← m.stepAt frames
  if step ≠ next.step ∨ m.stepChange ≠ next.stepChange ∨ m.denominator ≠ next.denominator then none
  else
    let numerator ← m.numeratorAt frames
    if numerator ≠ next.numerator then none else some m

/-- Restores the sign; the most negative change keeps its full magnitude. -/
def transformedStepChange (m : Rational) (magnitude : ℕ) : Option ℤ :=
  if m.stepChange < 0 ∧ magnitude ≠ 0 then
    if magnitude - 1 < 2 ^ 127 then some (-((magnitude - 1 : ℕ) : ℤ) - 1) else none
  else if magnitude < 2 ^ 127 then some magnitude else none

def transformed (m : Rational) (affine : Affine) : Option Rational := do
  let origin ← affine.apply (← Ratio.new m.numerator m.denominator)
  let step ← affine.scaleBy (← Ratio.new m.step m.denominator)
  let change ← affine.scaleBy (← Ratio.new m.stepChange.natAbs m.denominator)
  let shared ← Ratio.common origin.denominator step.denominator
  let denominator ← Ratio.common shared change.denominator
  let magnitude ← change.atDenominator denominator
  let stepChange ← m.transformedStepChange magnitude
  let numerator ← origin.atDenominator denominator
  let step ← step.atDenominator denominator
  pure ⟨numerator, denominator, step, stepChange⟩

structure Wide (m : Rational) : Prop where
  numerator : m.numerator < 2 ^ 128
  denominator : (m.denominator : ℕ) < 2 ^ 128
  step : m.step < 2 ^ 128
  least : -2 ^ 127 ≤ m.stepChange
  greatest : m.stepChange < 2 ^ 127

/-- The integer progression a mapping computes, before any width applies. -/
def progression (m : Rational) : Progression ℤ := ⟨m.numerator, m.step, m.stepChange⟩

/-- The exact source position at a frame. -/
def position (m : Rational) (frame : ℕ) : ℚ :=
  ((m.progression.value frame : ℤ) : ℚ) / (m.denominator : ℕ)

end Rational

/-- A float curve with positive rates: its target rate, its signed transient advance after an
elapsed count of frames, and the bit patterns of its three parameters. -/
class ExponentialApproach (C : Type) where
  decEq : DecidableEq C
  target : C → Option Ratio
  transientAdvance : C → ℕ → Option (Bool × Ratio)
  toBits : C → ℕ × ℕ × ℕ
  ofBits : ℕ × ℕ × ℕ → Option C

instance {C : Type} [ExponentialApproach C] : DecidableEq C := ExponentialApproach.decEq

/-- The curve whose initial and target rates are both one: no transient, one frame a frame. -/
inductive SteadyRate where
  | unit
  deriving DecidableEq

instance : ExponentialApproach SteadyRate where
  decEq := inferInstance
  target _ := some ⟨1, nonZeroMin⟩
  transientAdvance _ _ := some (false, ⟨0, nonZeroMin⟩)
  toBits _ := (0x3FF0000000000000, 0x3FF0000000000000, 0)
  ofBits bits := if bits = (0x3FF0000000000000, 0x3FF0000000000000, 0) then some .unit else none

variable {C : Type}

structure Approach (C : Type) where
  curve : C
  elapsed : ℕ
  origin : Ratio
  affine : Affine

inductive Mapping (C : Type) where
  | rational (mapping : Rational)
  | approach (mapping : Approach C)

section Operations

variable [ExponentialApproach C]

namespace Approach

def advanceAt (a : Approach C) (elapsed : ℕ) : Option Ratio := do
  let target ← ExponentialApproach.target a.curve
  let linear ← target.mul (← Ratio.new elapsed nonZeroMin)
  let (negative, correction) ← ExponentialApproach.transientAdvance a.curve elapsed
  let sum ← if negative then linear.sub correction else linear.add correction
  sum.nearestQ32

def ratioAt (a : Approach C) (frame : ℕ) : Option Ratio := do
  let elapsed ← checkedAdd 64 a.elapsed frame
  a.affine.apply (← a.origin.add (← a.advanceAt elapsed))

def sliced (a : Approach C) (start : ℕ) : Option (Approach C) := do
  let elapsed ← checkedAdd 64 a.elapsed start
  pure { a with elapsed }

def transformed (a : Approach C) (affine : Affine) : Option (Approach C) := do
  let affine ← a.affine.andThen affine
  pure { a with affine }

def followedBy (a next : Approach C) (frames : ℕ) : Option (Approach C) :=
  if a.curve ≠ next.curve ∨ a.origin ≠ next.origin ∨ a.affine ≠ next.affine then none
  else do
    let elapsed ← checkedAdd 64 a.elapsed frames
    if elapsed ≠ next.elapsed then none else some a

end Approach

namespace Mapping

def ratioAt : Mapping C → ℕ → Option Ratio
  | .rational m, frame => do Ratio.new (← m.numeratorAt frame) m.denominator
  | .approach a, frame => a.ratioAt frame

def lastStep : Mapping C → ℕ → Option Unit
  | .rational m, frames => if frames > 0 then (m.stepAt (frames - 1)).map fun _ => () else some ()
  | .approach _, _ => some ()

def validate (mapping : Mapping C) (frames : ℕ) : Option Unit := do
  mapping.lastStep frames
  let _ ← (← mapping.ratioAt 0).sourceFrame
  let _ ← (← mapping.ratioAt frames).sourceFrame
  pure ()

def sliced : Mapping C → ℕ → ℕ → Option (Mapping C)
  | .rational m, start, frames => (m.sliced start frames).map .rational
  | .approach a, start, _ => (a.sliced start).map .approach

def transformed : Mapping C → Affine → Option (Mapping C)
  | .rational m, affine => (m.transformed affine).map .rational
  | .approach a, affine => (a.transformed affine).map .approach

def followedBy : Mapping C → Mapping C → ℕ → Option (Mapping C)
  | .rational m, .rational next, frames => (m.followedBy next frames).map .rational
  | .approach a, .approach next, frames => (a.followedBy next frames).map .approach
  | _, _, _ => none

/-- The coefficients fit the machine types of their fields. -/
def Wide : Mapping C → Prop
  | .rational m => m.Wide
  | .approach _ => True

end Mapping

end Operations

@[simp] theorem progression_value_zero (m : Rational) :
    m.progression.value 0 = m.numerator := Progression.value_zero _

@[simp] theorem progression_stepAt_zero (m : Rational) :
    m.progression.stepAt 0 = m.step := Progression.stepAt_zero _

/-- Room for `N` advances: each intermediate fits its width and no advance is negative. -/
structure Progress (m : Rational) (N : ℕ) : Prop where
  linear : m.step * N < 2 ^ 128
  product : N * (N - 1) < 2 ^ 128
  change : N.choose 2 * m.stepChange.natAbs < 2 ^ 128
  lastChange : m.stepChange.natAbs * (N - 1) < 2 ^ 128
  forward : 0 < N → 0 ≤ m.progression.stepAt (N - 1)
  lastStep : 0 < N → m.progression.stepAt (N - 1) < 2 ^ 128
  bounded : m.progression.value N < 2 ^ 128

theorem stepAt_eq_some {m : Rational} {frame s : ℕ} :
    m.stepAt frame = some s ↔ m.stepChange.natAbs * frame < 2 ^ 128 ∧
      (s : ℤ) = m.progression.stepAt frame ∧ (0 ≤ m.stepChange → s < 2 ^ 128) := by
  have hv : m.progression.stepAt frame = m.step + frame * m.stepChange := rfl
  simp only [Rational.stepAt, Option.bind_eq_bind, Option.bind_eq_some_iff, checkedMul_eq_some]
  rw [hv]
  by_cases hc : m.stepChange < 0
  · have ha : ((m.stepChange.natAbs * frame : ℕ) : ℤ) = -(frame * m.stepChange) := by
      rw [Nat.cast_mul, Int.natCast_natAbs, abs_of_neg hc]
      ring
    simp only [if_pos hc, checkedSub_eq_some]
    constructor
    · rintro ⟨change, ⟨rfl, hw⟩, hs⟩
      refine ⟨hw, ?_, fun h => absurd hc (by omega)⟩
      omega
    · rintro ⟨hw, hs, _⟩
      exact ⟨_, ⟨rfl, hw⟩, by omega⟩
  · have ha : ((m.stepChange.natAbs * frame : ℕ) : ℤ) = frame * m.stepChange := by
      rw [Nat.cast_mul, Int.natCast_natAbs, abs_of_nonneg (by omega)]
      ring
    simp only [if_neg hc, checkedAdd_eq_some]
    constructor
    · rintro ⟨change, ⟨rfl, hw⟩, hs, hb⟩
      exact ⟨hw, by omega, fun _ => hb⟩
    · rintro ⟨hw, hs, hb⟩
      exact ⟨_, ⟨rfl, hw⟩, by omega, hb (by omega)⟩

theorem numeratorAt_eq_some {m : Rational} {frame n : ℕ} :
    m.numeratorAt frame = some n ↔ m.step * frame < 2 ^ 128 ∧ frame * (frame - 1) < 2 ^ 128 ∧
      frame.choose 2 * m.stepChange.natAbs < 2 ^ 128 ∧
      (m.numerator : ℤ) ≤ m.progression.value frame ∧
      (0 ≤ m.stepChange → m.progression.value frame - m.numerator < 2 ^ 128) ∧
      (n : ℤ) = m.progression.value frame ∧ n < 2 ^ 128 := by
  have hv : m.progression.value frame =
      m.numerator + frame * m.step + (frame.choose 2 : ℕ) * m.stepChange := rfl
  have hl : ((m.step * frame : ℕ) : ℤ) = frame * m.step := by push_cast; ring
  simp only [Rational.numeratorAt, Option.bind_eq_bind, Option.bind_eq_some_iff,
    checkedMul_eq_some, checkedAdd_eq_some]
  by_cases hc : m.stepChange < 0
  · have ha : ((frame.choose 2 * m.stepChange.natAbs : ℕ) : ℤ) =
        -((frame.choose 2 : ℕ) * m.stepChange) := by
      rw [Nat.cast_mul, Int.natCast_natAbs, abs_of_neg hc]
      ring
    simp only [if_pos hc, checkedSub_eq_some]
    constructor
    · rintro ⟨linear, ⟨rfl, hlw⟩, product, ⟨rfl, hpw⟩, change, ⟨rfl, hcw⟩, advance, hs, rfl, hn⟩
      rw [← Nat.choose_two_right] at hcw hs
      exact ⟨hlw, hpw, hcw, by omega, fun h => absurd hc (by omega), by omega, hn⟩
    · rintro ⟨hlw, hpw, hcw, hge, _, hn, hb⟩
      rw [Nat.choose_two_right] at hcw
      refine ⟨_, ⟨rfl, hlw⟩, _, ⟨rfl, hpw⟩, _, ⟨rfl, hcw⟩, n - m.numerator, ?_, by omega, hb⟩
      rw [← Nat.choose_two_right]
      omega
  · have ha : ((frame.choose 2 * m.stepChange.natAbs : ℕ) : ℤ) =
        (frame.choose 2 : ℕ) * m.stepChange := by
      rw [Nat.cast_mul, Int.natCast_natAbs, abs_of_nonneg (by omega)]
    simp only [if_neg hc, checkedAdd_eq_some]
    constructor
    · rintro ⟨linear, ⟨rfl, hlw⟩, product, ⟨rfl, hpw⟩, change, ⟨rfl, hcw⟩, advance, ⟨hs, has⟩,
        rfl, hn⟩
      rw [← Nat.choose_two_right] at hcw hs
      exact ⟨hlw, hpw, hcw, by omega, fun _ => by omega, by omega, hn⟩
    · rintro ⟨hlw, hpw, hcw, hge, had, hn, hb⟩
      have had := had (by omega)
      rw [Nat.choose_two_right] at hcw
      refine ⟨_, ⟨rfl, hlw⟩, _, ⟨rfl, hpw⟩, _, ⟨rfl, hcw⟩, n - m.numerator, ⟨?_, by omega⟩,
        by omega, hb⟩
      rw [← Nat.choose_two_right]
      omega

namespace Progress

variable {m : Rational} {N : ℕ}

theorem step_nonneg (h : Progress m N) {n : ℕ} (hn : n < N) : 0 ≤ m.progression.stepAt n :=
  Progression.stepAt_nonneg (Int.natCast_nonneg m.step) (h.forward (by omega)) (by omega)

theorem value_le (h : Progress m N) {a b : ℕ} (hab : a ≤ b) (hb : b ≤ N) :
    m.progression.value a ≤ m.progression.value b :=
  Progression.value_le_value (fun _ hn => h.step_nonneg hn) hab hb

theorem numerator_le (h : Progress m N) {a : ℕ} (ha : a ≤ N) :
    (m.numerator : ℤ) ≤ m.progression.value a := by
  have := h.value_le (Nat.zero_le a) ha
  rwa [progression_value_zero] at this

theorem numeratorAt (h : Progress m N) :
    ∃ n, m.numeratorAt N = some n ∧ (n : ℤ) = m.progression.value N := by
  have hge := h.numerator_le le_rfl
  have hb := h.bounded
  refine ⟨(m.progression.value N).toNat, numeratorAt_eq_some.mpr ?_, by omega⟩
  exact ⟨h.linear, h.product, h.change, hge, fun _ => by omega, by omega, by omega⟩

theorem stepAt_le (h : Progress m N) {a : ℕ} (ha : a < N) : m.progression.stepAt a < 2 ^ 128 := by
  have hv (k : ℕ) : m.progression.stepAt k = m.step + k * m.stepChange := rfl
  have hlast := h.lastStep (by omega)
  have hlin : (m.step : ℤ) * N < 2 ^ 128 := by exact_mod_cast h.linear
  rw [hv] at hlast ⊢
  rcases le_total 0 m.stepChange with hc | hc
  · have : (a : ℤ) * m.stepChange ≤ (N - 1 : ℕ) * m.stepChange :=
      mul_le_mul_of_nonneg_right (by exact_mod_cast (by omega : a ≤ N - 1)) hc
    omega
  · have hneg : (a : ℤ) * m.stepChange ≤ 0 := mul_nonpos_of_nonneg_of_nonpos (by omega) hc
    have : (m.step : ℤ) ≤ m.step * N := le_mul_of_one_le_right (by omega) (by omega)
    omega

theorem stepAt (h : Progress m N) {a : ℕ} (ha : a < N) :
    ∃ s, m.stepAt a = some s ∧ (s : ℤ) = m.progression.stepAt a := by
  have hnn := h.step_nonneg ha
  have hlt := h.stepAt_le ha
  have hch : m.stepChange.natAbs * a ≤ m.stepChange.natAbs * (N - 1) :=
    Nat.mul_le_mul_left _ (by omega)
  have hlc := h.lastChange
  refine ⟨(m.progression.stepAt a).toNat, stepAt_eq_some.mpr ?_, by omega⟩
  exact ⟨by omega, by omega, fun _ => by omega⟩

/-- A tail of a mapping has room for its own advances; an empty tail needs only its origin. -/
theorem tail (h : Progress m N) {t : Rational} {a M : ℕ} (haM : a + M ≤ N)
    (origin : (t.numerator : ℤ) = m.progression.value a)
    (step : 0 < M → (t.step : ℤ) = m.progression.stepAt a)
    (change : t.stepChange = m.stepChange) : Progress t M := by
  rcases Nat.eq_zero_or_pos M with rfl | hM
  · have hb := h.bounded
    have hle := h.value_le (a := a) (by omega) le_rfl
    refine ⟨by omega, by omega, by simp, by simp, by omega, by omega, ?_⟩
    rw [progression_value_zero]
    omega
  have hshift : t.progression = m.progression.shift a := by
    ext
    · exact origin
    · exact step hM
    · exact change
  have hend : t.progression.value M = m.progression.value (a + M) := by
    rw [hshift, Progression.shift_value]
  have hlast : t.progression.stepAt (M - 1) = m.progression.stepAt (a + (M - 1)) := by
    rw [hshift, Progression.shift_stepAt]
  have hle := h.value_le haM le_rfl
  have hb := h.bounded
  have hch : M.choose 2 ≤ N.choose 2 := Nat.choose_le_choose 2 (by omega)
  refine ⟨?_, ?_, ?_, ?_, ?_, ?_, ?_⟩
  · rcases le_total 0 m.stepChange with hc | hc
    · have hval : t.progression.value M =
          t.numerator + M * t.step + (M.choose 2 : ℕ) * t.stepChange := rfl
      have hnn : (0 : ℤ) ≤ (M.choose 2 : ℕ) * t.stepChange := by
        rw [change]
        positivity
      have hlin : ((t.step * M : ℕ) : ℤ) = M * t.step := by push_cast; ring
      omega
    · have hle' : t.step ≤ m.step := by
        have hs := step hM
        have hv : m.progression.stepAt a = m.step + a * m.stepChange := rfl
        have : (a : ℤ) * m.stepChange ≤ 0 := mul_nonpos_of_nonneg_of_nonpos (by omega) hc
        omega
      calc t.step * M ≤ m.step * N := Nat.mul_le_mul hle' (by omega)
        _ < 2 ^ 128 := h.linear
  · calc M * (M - 1) ≤ N * (N - 1) := Nat.mul_le_mul (by omega) (by omega)
      _ < 2 ^ 128 := h.product
  · rw [change]
    calc M.choose 2 * m.stepChange.natAbs ≤ N.choose 2 * m.stepChange.natAbs :=
          Nat.mul_le_mul_right _ hch
      _ < 2 ^ 128 := h.change
  · rw [change]
    calc m.stepChange.natAbs * (M - 1) ≤ m.stepChange.natAbs * (N - 1) :=
          Nat.mul_le_mul_left _ (by omega)
      _ < 2 ^ 128 := h.lastChange
  · intro _
    rw [hlast]
    exact h.step_nonneg (by omega)
  · intro _
    rw [hlast]
    exact h.stepAt_le (by omega)
  · rw [hend]
    omega

theorem initial_part (h : Progress m N) {M : ℕ} (hM : M ≤ N) : Progress m M :=
  h.tail (a := 0) (by omega) (by simp) (by simp) rfl

theorem interior (h : Progress m N) {a : ℕ} (ha : a ≤ N) :
    ∃ n, m.numeratorAt a = some n ∧ (n : ℤ) = m.progression.value a :=
  (h.initial_part ha).numeratorAt

end Progress

theorem tail_value {m t : Rational} {a M k : ℕ} (hk : k ≤ M)
    (origin : (t.numerator : ℤ) = m.progression.value a)
    (step : 0 < M → (t.step : ℤ) = m.progression.stepAt a)
    (change : t.stepChange = m.stepChange) :
    t.progression.value k = m.progression.value (a + k) := by
  rcases Nat.eq_zero_or_pos k with rfl | hpos
  · rw [progression_value_zero, Nat.add_zero]
    exact origin
  · have hshift : t.progression = m.progression.shift a := by
      ext
      · exact origin
      · exact step (by omega)
      · exact change
    rw [hshift, Progression.shift_value]

theorem progress_of_ends {m : Rational} {N n : ℕ} (hn : m.numeratorAt N = some n)
    (hs : 0 < N → ∃ s, m.stepAt (N - 1) = some s) : Progress m N := by
  obtain ⟨hl, hp, hc, _, _, hv, hb⟩ := numeratorAt_eq_some.mp hn
  have hbound : m.progression.value N < 2 ^ 128 := by omega
  rcases Nat.eq_zero_or_pos N with rfl | hN
  · exact ⟨hl, hp, hc, by simp, by omega, by omega, hbound⟩
  obtain ⟨s, hs⟩ := hs hN
  obtain ⟨hlc, hsv, hsb⟩ := stepAt_eq_some.mp hs
  refine ⟨hl, hp, hc, hlc, fun _ => by omega, fun _ => ?_, hbound⟩
  rcases le_or_gt 0 m.stepChange with hc0 | hc0
  · have := hsb hc0
    omega
  · have hv : m.progression.stepAt (N - 1) = m.step + (N - 1 : ℕ) * m.stepChange := rfl
    have : ((N - 1 : ℕ) : ℤ) * m.stepChange ≤ 0 :=
      mul_nonpos_of_nonneg_of_nonpos (by omega) hc0.le
    have : m.step ≤ m.step * N := Nat.le_mul_of_pos_right _ hN
    omega

theorem stepAt_lt {m : Rational} {frame s : ℕ} (hw : m.step < 2 ^ 128)
    (h : m.stepAt frame = some s) : s < 2 ^ 128 := by
  obtain ⟨_, hs, hlt⟩ := stepAt_eq_some.mp h
  rcases le_or_gt 0 m.stepChange with hc | hc
  · exact hlt hc
  · have hv : m.progression.stepAt frame = m.step + frame * m.stepChange := rfl
    have : (frame : ℤ) * m.stepChange ≤ 0 := mul_nonpos_of_nonneg_of_nonpos (by omega) hc.le
    omega

theorem sliced_wide {m t : Rational} {start frames : ℕ} (hw : m.Wide)
    (h : m.sliced start frames = some t) : t.Wide := by
  simp only [Rational.sliced, Option.bind_eq_bind, Option.bind_eq_some_iff, Option.pure_def,
    Option.some.injEq] at h
  obtain ⟨numerator, hn, step, hs, rfl⟩ := h
  refine ⟨(numeratorAt_eq_some.mp hn).2.2.2.2.2.2, hw.denominator, ?_, hw.least, hw.greatest⟩
  split at hs
  · obtain rfl := Option.some.inj hs
    exact Nat.two_pow_pos 128
  · exact stepAt_lt hw.step hs

theorem transformedStepChange_eq_some {m : Rational} {magnitude : ℕ} {c : ℤ} :
    m.transformedStepChange magnitude = some c ↔
      -2 ^ 127 ≤ c ∧ c < 2 ^ 127 ∧ c = if m.stepChange < 0 then -(magnitude : ℤ) else magnitude := by
  simp only [Rational.transformedStepChange]
  by_cases hneg : m.stepChange < 0
  · by_cases hz : magnitude = 0
    · simp [hneg, hz]
      omega
    · simp only [hneg, hz, ne_eq, not_false_eq_true, and_self, if_true]
      split <;> simp only [Option.some.injEq, reduceCtorEq, false_iff] <;> omega
  · simp only [hneg, false_and, if_false]
    split <;> simp only [Option.some.injEq, reduceCtorEq, false_iff] <;> omega

theorem transformed_eq_some {m t : Rational} {affine : Affine}
    (h : m.transformed affine = some t) :
    t.Wide ∧ ∃ o s c origin step change, Ratio.new m.numerator m.denominator = some o ∧
      Ratio.new m.step m.denominator = some s ∧
      Ratio.new m.stepChange.natAbs m.denominator = some c ∧
      affine.apply o = some origin ∧ affine.scaleBy s = some step ∧
      affine.scaleBy c = some change ∧
      (t.numerator : ℚ) / (t.denominator : ℕ) = origin.toRat ∧
      (t.step : ℚ) / (t.denominator : ℕ) = step.toRat ∧
      (t.stepChange : ℚ) / (t.denominator : ℕ) =
        if m.stepChange < 0 then -change.toRat else change.toRat := by
  simp only [Rational.transformed, Option.bind_eq_bind, Option.bind_eq_some_iff,
    Option.pure_def, Option.some.injEq] at h
  obtain ⟨o, ho, origin, horigin, s, hs, step, hstep, c, hc, change, hchange, shared, hshared,
    denominator, hdenominator, magnitude, hmagnitude, stepChange, hsign, numerator, hnumerator,
    stepNumerator, hstepNumerator, rfl⟩ := h
  obtain ⟨hos, hss⟩ := common_dvd hshared
  obtain ⟨hsd, hcd⟩ := common_dvd hdenominator
  obtain ⟨hleast, hgreatest, hvalue⟩ := transformedStepChange_eq_some.mp hsign
  refine ⟨⟨?_, ?_, ?_, hleast, hgreatest⟩, o, s, c, origin, step, change, ho, hs, hc, horigin,
    hstep, hchange, atDenominator_div hnumerator (hos.trans hsd),
    atDenominator_div hstepNumerator (hss.trans hsd), ?_⟩
  · exact (checkedMul_eq_some.mp hnumerator).2
  · exact common_lt hdenominator
  · exact (checkedMul_eq_some.mp hstepNumerator).2
  · rw [← atDenominator_div hmagnitude hcd, hvalue]
    split
    · push_cast
      ring
    · push_cast
      ring

/-- The progression of a mapping with each of its terms over the denominator. -/
def Rational.quotients (m : Rational) : Progression ℚ :=
  ⟨(m.numerator : ℚ) / (m.denominator : ℕ), (m.step : ℚ) / (m.denominator : ℕ),
    (m.stepChange : ℚ) / (m.denominator : ℕ)⟩

theorem quotients_value (m : Rational) (k : ℕ) : m.position k = m.quotients.value k := by
  have hd := pnat_ne_zero m.denominator
  simp only [Rational.position, Progression.value, Rational.progression, Rational.quotients]
  push_cast
  field_simp

/-- An affine image of a mapping has the affine image of its position at every frame. -/
theorem transformed_position {m t : Rational} {affine : Affine}
    (h : m.transformed affine = some t) (k : ℕ) : t.position k = affine.eval (m.position k) := by
  obtain ⟨_, o, s, c, origin, step, change, ho, hs, hc, horigin, hstep, hchange, hto, hts, htc⟩ :=
    transformed_eq_some h
  have hsigned : (t.stepChange : ℚ) / (t.denominator : ℕ) =
      affine.scale.toRat * ((m.stepChange : ℚ) / (m.denominator : ℕ)) := by
    rw [htc, scaleBy_toRat hchange, new_toRat hc]
    split
    · next hneg =>
      have : ((m.stepChange.natAbs : ℕ) : ℚ) = -m.stepChange := by
        rw [← Int.cast_natCast, Int.natCast_natAbs, abs_of_neg hneg, Int.cast_neg]
      rw [this]
      ring
    · next hneg =>
      have : ((m.stepChange.natAbs : ℕ) : ℚ) = m.stepChange := by
        rw [← Int.cast_natCast, Int.natCast_natAbs, abs_of_nonneg (by omega)]
      rw [this]
  have himage : t.quotients = m.quotients.affineImage affine.scale.toRat affine.offset.toRat := by
    simp only [Rational.quotients, Progression.affineImage, hto, hts, hsigned,
      apply_toRat horigin, scaleBy_toRat hstep, new_toRat ho, new_toRat hs, Affine.eval]
  rw [quotients_value, quotients_value, himage, Progression.affineImage_value, Affine.eval]

theorem rational_followedBy_eq_some {m next t : Rational} {frames : ℕ} :
    m.followedBy next frames = some t ↔ t = m ∧ m.stepAt frames = some next.step ∧
      m.stepChange = next.stepChange ∧ m.denominator = next.denominator ∧
      m.numeratorAt frames = some next.numerator := by
  simp only [Rational.followedBy, Option.bind_eq_bind, Option.bind_eq_some_iff]
  constructor
  · rintro ⟨step, hs, h⟩
    split at h
    · contradiction
    · next heq =>
      simp only [not_or, not_not] at heq
      obtain ⟨rfl, hc, hd⟩ := heq
      obtain ⟨numerator, hn, h⟩ := Option.bind_eq_some_iff.mp h
      split at h
      · contradiction
      · next hnum =>
        obtain rfl := not_not.mp hnum
        exact ⟨(Option.some.inj h).symm, hs, hc, hd, hn⟩
  · rintro ⟨rfl, hs, hc, hd, hn⟩
    refine ⟨next.step, hs, ?_⟩
    simp [hc, hd, hn]

theorem mapping_sliced_wide {mapping t : Mapping C} {start frames : ℕ} (hw : mapping.Wide)
    (h : mapping.sliced start frames = some t) : t.Wide := by
  cases mapping with
  | rational m =>
    obtain ⟨r, hr, rfl⟩ := Option.map_eq_some_iff.mp h
    exact sliced_wide hw hr
  | approach a =>
    obtain ⟨r, _, rfl⟩ := Option.map_eq_some_iff.mp h
    trivial

theorem mapping_transformed_wide {mapping t : Mapping C} {affine : Affine}
    (h : mapping.transformed affine = some t) : t.Wide := by
  cases mapping with
  | rational m =>
    obtain ⟨r, hr, rfl⟩ := Option.map_eq_some_iff.mp h
    exact (transformed_eq_some hr).1
  | approach a =>
    obtain ⟨r, _, rfl⟩ := Option.map_eq_some_iff.mp h
    trivial

theorem approach_followedBy_eq_some [ExponentialApproach C] {a next t : Approach C} {frames : ℕ} :
    a.followedBy next frames = some t ↔ t = a ∧ a.curve = next.curve ∧ a.origin = next.origin ∧
      a.affine = next.affine ∧ a.elapsed + frames = next.elapsed ∧ next.elapsed < 2 ^ 64 := by
  simp only [Approach.followedBy]
  split
  · next hne =>
    simp only [reduceCtorEq, false_iff]
    rintro ⟨_, hc, ho, ha, _⟩
    rcases hne with hne | hne | hne <;> contradiction
  · next heq =>
    simp only [not_or, not_not] at heq
    obtain ⟨hc, ho, ha⟩ := heq
    simp only [Option.bind_eq_bind, Option.bind_eq_some_iff, checkedAdd_eq_some]
    constructor
    · rintro ⟨elapsed, ⟨he, hlt⟩, h⟩
      split at h
      · contradiction
      · next hsame =>
        obtain rfl := not_not.mp hsame
        exact ⟨(Option.some.inj h).symm, hc, ho, ha, he, hlt⟩
    · rintro ⟨rfl, _, _, _, he, hlt⟩
      exact ⟨next.elapsed, ⟨he, hlt⟩, by simp⟩

end SpanMapping

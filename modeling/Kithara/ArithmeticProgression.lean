import Mathlib.Data.Nat.Choose.Basic
import Mathlib.Algebra.Order.Ring.Defs
import Mathlib.Algebra.Order.Ring.Cast
import Mathlib.Tactic.Ring
import Mathlib.Tactic.Linarith

/-! Progressions whose advances change by a constant: position after `n` advances, re-basing
at a later advance, affine images, and order from the sign of the last advance. -/
namespace ArithmeticProgression

@[ext] structure Progression (R : Type*) where
  origin : R
  step : R
  change : R

namespace Progression

section Ring

variable {R : Type*} [CommRing R] (p : Progression R)

def stepAt (n : ℕ) : R := p.step + n * p.change

def value (n : ℕ) : R := p.origin + n * p.step + (n.choose 2 : ℕ) * p.change

def shift (a : ℕ) : Progression R := ⟨p.value a, p.stepAt a, p.change⟩

def affineImage (scale offset : R) : Progression R :=
  ⟨scale * p.origin + offset, scale * p.step, scale * p.change⟩

theorem value_zero : p.value 0 = p.origin := by simp [value]

theorem stepAt_zero : p.stepAt 0 = p.step := by simp [stepAt]

theorem value_succ (n : ℕ) : p.value (n + 1) = p.value n + p.stepAt n := by
  have hc : (n + 1).choose 2 = n + n.choose 2 := by
    rw [Nat.choose_succ_succ', Nat.choose_one_right]
  simp only [value, stepAt, hc]
  push_cast
  ring

theorem shift_stepAt (a k : ℕ) : (p.shift a).stepAt k = p.stepAt (a + k) := by
  simp only [shift, stepAt]
  push_cast
  ring

/-- A shifted progression continues the original one. -/
theorem shift_value (a k : ℕ) : (p.shift a).value k = p.value (a + k) := by
  induction k with
  | zero => simp [shift, value_zero]
  | succ k ih => rw [value_succ, ih, shift_stepAt, ← Nat.add_assoc, value_succ]

theorem affineImage_value (scale offset : R) (k : ℕ) :
    (p.affineImage scale offset).value k = scale * p.value k + offset := by
  simp only [affineImage, value]
  ring

end Ring

section Order

variable {R : Type*} [CommRing R] [LinearOrder R] [IsStrictOrderedRing R] {p : Progression R}

/-- Advances lie between the first and the last one. -/
theorem stepAt_nonneg {n N : ℕ} (first : 0 ≤ p.step) (last : 0 ≤ p.stepAt N) (hn : n ≤ N) :
    0 ≤ p.stepAt n := by
  have hnN : (n : R) ≤ N := Nat.cast_le.mpr hn
  have hn0 : (0 : R) ≤ n := Nat.cast_nonneg n
  rcases le_total 0 p.change with h | h
  · exact add_nonneg first (mul_nonneg hn0 h)
  · have := mul_le_mul_of_nonpos_right hnN h
    simp only [stepAt] at last ⊢
    linarith

theorem value_le_value {a b N : ℕ} (steps : ∀ n < N, 0 ≤ p.stepAt n) (hab : a ≤ b) (hb : b ≤ N) :
    p.value a ≤ p.value b := by
  induction b, hab using Nat.le_induction with
  | base => exact le_rfl
  | succ b hab ih =>
    have hstep : 0 ≤ p.stepAt b := steps b (by omega)
    have hprev : p.value a ≤ p.value b := ih (by omega)
    rw [value_succ]
    linarith

end Order

end Progression

end ArithmeticProgression

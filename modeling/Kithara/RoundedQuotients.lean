import Mathlib.Algebra.Order.Floor.Semifield
import Mathlib.Data.Rat.Floor
import Mathlib.Tactic.FieldSimp
import Mathlib.Tactic.Ring

/-! Quotients rounded to the nearest natural, halves upward: a quotient with a remainder rounds by
the remainder alone, and a common factor does not matter. -/
namespace RoundedQuotients

def rounded (numerator denominator : ℕ) : ℕ := (2 * numerator + denominator) / (2 * denominator)

theorem rounded_eq_floor (n : ℕ) {d : ℕ} (hd : 0 < d) :
    ⌊(n : ℚ) / d + 1 / 2⌋₊ = rounded n d := by
  have hd' : (d : ℚ) ≠ 0 := Nat.cast_ne_zero.mpr hd.ne'
  have hcast : (n : ℚ) / d + 1 / 2 = ((2 * n + d : ℕ) : ℚ) / ((2 * d : ℕ) : ℚ) := by
    push_cast
    field_simp
  rw [hcast, Nat.floor_div_eq_div, rounded]

/-- Whole parts pass through; what is left rounds up from one half on. -/
theorem rounded_split (q : ℕ) {d m : ℕ} (hm : m < d) :
    rounded (d * q + m) d = q + if m ≥ d - m then 1 else 0 := by
  have hsplit : 2 * (d * q + m) + d = 2 * d * q + (2 * m + d) := by ring
  rw [rounded, hsplit, Nat.mul_add_div (by omega)]
  congr 1
  split
  · exact Nat.div_eq_of_lt_le (by omega) (by omega)
  · exact Nat.div_eq_of_lt (by omega)

theorem rounded_mul_right {c : ℕ} (hc : 0 < c) (n d : ℕ) :
    rounded (n * c) (d * c) = rounded n d := by
  have hn : 2 * (n * c) + d * c = (2 * n + d) * c := by ring
  have hd : 2 * (d * c) = 2 * d * c := by ring
  rw [rounded, rounded, hn, hd, Nat.mul_div_mul_right _ _ hc]

theorem rounded_whole (q : ℕ) {d : ℕ} (hd : 0 < d) : rounded (d * q) d = q := by
  have h := rounded_split q hd
  rwa [Nat.add_zero, if_neg (by omega), Nat.add_zero] at h

end RoundedQuotients

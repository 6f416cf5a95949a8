import Mathlib.Data.Int.Log
import Mathlib.Data.Rat.Floor
import Mathlib.Tactic.NormNum

/-! Rounding a nonnegative rational to a double: 53 significant bits, ties to the even one. Only
magnitudes far from the ends of the format's range are meant, so it has no infinities and no
subnormal values. A natural up to `2 ^ 53` is a double. -/
namespace DoubleRounding

def roundEven (q : ℚ) : ℤ :=
  let low := ⌊q⌋
  if q - low < 1 / 2 then low
  else if 1 / 2 < q - low then low + 1
  else if low % 2 = 0 then low else low + 1

/-- The step between the doubles around a value. -/
def spacing (q : ℚ) : ℚ := 2 ^ (Int.log 2 q - 52)

def nearest (q : ℚ) : ℚ := roundEven (q / spacing q) * spacing q

theorem roundEven_intCast (k : ℤ) : roundEven k = k := by
  simp [roundEven]

theorem spacing_pos (q : ℚ) : 0 < spacing q := zpow_pos (by norm_num) _

/-- A multiple of the step around it is a double. -/
theorem nearest_eq_self {q : ℚ} {k : ℤ} (h : q = k * spacing q) : nearest q = q := by
  have hdiv : q / spacing q = k := by
    rw [div_eq_iff (spacing_pos q).ne']
    exact h
  rw [nearest, hdiv, roundEven_intCast]
  exact h.symm

theorem nearest_natCast {n : ℕ} (h : n ≤ 2 ^ 53) : nearest n = n := by
  rcases Nat.lt_or_ge n (2 ^ 53) with hlt | hge
  · have hlog : Nat.log 2 n ≤ 52 := by
      rcases Nat.eq_zero_or_pos n with rfl | hpos
      · simp
      · exact Nat.lt_succ_iff.mp (Nat.log_lt_of_lt_pow hpos.ne' hlt)
    refine nearest_eq_self (k := (n * 2 ^ (52 - Nat.log 2 n) : ℕ)) ?_
    have hstep : spacing (n : ℚ) = (2 ^ (52 - Nat.log 2 n))⁻¹ := by
      rw [spacing, Int.log_natCast, ← zpow_natCast, ← zpow_neg, Nat.cast_sub hlog]
      norm_num
    rw [hstep]
    push_cast
    rw [mul_assoc, mul_inv_cancel₀ (pow_ne_zero _ (by norm_num)), mul_one]
  · obtain rfl : n = 2 ^ 53 := Nat.le_antisymm h hge
    refine nearest_eq_self (k := 2 ^ 52) ?_
    have hlog : Nat.log 2 (2 ^ 53) = 53 := Nat.log_pow (by norm_num) 53
    rw [spacing, Int.log_natCast, hlog]
    norm_num

theorem nearest_one : nearest 1 = 1 := by
  simpa using nearest_natCast (n := 1) (by norm_num)

end DoubleRounding

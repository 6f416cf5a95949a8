import Mathlib.Data.Nat.Prime.Basic
import Mathlib.Data.PNat.Defs
import Mathlib.Algebra.Order.Group.Nat
import Mathlib.Tactic.Ring

/-! Unsigned fixed-width arithmetic over the naturals: checked operations, nonzero values,
trailing zeros and powers of two, with the halving facts a binary gcd rests on. -/
namespace CheckedArithmetic

def checkedAdd (bits a b : ℕ) : Option ℕ := if a + b < 2 ^ bits then some (a + b) else none

def checkedMul (bits a b : ℕ) : Option ℕ := if a * b < 2 ^ bits then some (a * b) else none

def checkedSub (a b : ℕ) : Option ℕ := if b ≤ a then some (a - b) else none

def divCeil (a b : ℕ) : ℕ := if 0 < a % b then a / b + 1 else a / b

/-- The nonzero wrapper of a word, absent for zero. -/
def nonZero (n : ℕ) : Option ℕ+ := if h : 0 < n then some (n.toPNat h) else none

/-- The least nonzero word. -/
abbrev nonZeroMin : ℕ+ := 1

theorem checkedAdd_eq_some {bits a b c : ℕ} :
    checkedAdd bits a b = some c ↔ a + b = c ∧ c < 2 ^ bits := by
  simp only [checkedAdd]
  split <;> simp only [Option.some.injEq, reduceCtorEq, false_iff] <;> omega

theorem checkedAdd_assoc (bits a b c : ℕ) :
    checkedAdd bits (a + b) c = checkedAdd bits a (b + c) := by
  rw [checkedAdd, checkedAdd, Nat.add_assoc]

theorem checkedMul_eq_some {bits a b c : ℕ} :
    checkedMul bits a b = some c ↔ a * b = c ∧ c < 2 ^ bits := by
  simp only [checkedMul]
  split <;> simp only [Option.some.injEq, reduceCtorEq, false_iff] <;> omega

theorem checkedSub_eq_some {a b c : ℕ} : checkedSub a b = some c ↔ b + c = a := by
  simp only [checkedSub]
  split <;> simp only [Option.some.injEq, reduceCtorEq, false_iff] <;> omega

theorem nonZero_eq_some {n : ℕ} {p : ℕ+} : nonZero n = some p ↔ n = p := by
  by_cases h : 0 < n
  · rw [nonZero, dif_pos h, Option.some.injEq]
    exact ⟨fun hp => by rw [← hp]; rfl, fun hp => PNat.eq hp⟩
  · rw [nonZero, dif_neg h]
    have := p.pos
    simp only [reduceCtorEq, false_iff]
    omega

theorem nonZero_pos {n : ℕ} (h : 0 < n) : nonZero n = some (n.toPNat h) := dif_pos h

theorem le_divCeil {a b : ℕ} (hb : 0 < b) : a ≤ divCeil a b * b := by
  have hdiv := Nat.div_add_mod a b
  have hmod := Nat.mod_lt a hb
  rw [Nat.mul_comm] at hdiv
  unfold divCeil
  split
  · rw [Nat.add_mul]
    omega
  · omega

theorem mul_lt_of_lt_divCeil {a b i : ℕ} (h : i < divCeil a b) : i * b < a := by
  have hdiv := Nat.div_add_mod a b
  rw [Nat.mul_comm] at hdiv
  unfold divCeil at h
  split at h
  · have := Nat.mul_le_mul_right b (Nat.lt_succ_iff.mp h)
    omega
  · have hb : 0 < b := by
      by_contra hzero
      obtain rfl : b = 0 := by omega
      simp at h
    have := Nat.mul_le_mul_right b (Nat.succ_le_of_lt h)
    rw [Nat.succ_mul] at this
    omega

theorem divCeil_le {a b : ℕ} (hb : 0 < b) : divCeil a b ≤ a := by
  by_contra h
  have := mul_lt_of_lt_divCeil (not_le.mp h)
  have := Nat.le_mul_of_pos_right a hb
  omega

/-- Number of low zero bits, `bits` for zero as the word type reports it. -/
def trailingZeros (bits n : ℕ) : ℕ :=
  if n = 0 then bits else if n % 2 = 1 then 0 else trailingZeros bits (n / 2) + 1
termination_by n

def isPowerOfTwo (n : ℕ) : Bool := n == 2 ^ n.log2

theorem trailingZeros_odd {bits n : ℕ} (h : n % 2 = 1) : trailingZeros bits n = 0 := by
  rw [trailingZeros, if_neg (by omega), if_pos h]

theorem trailingZeros_even {bits n : ℕ} (hn : n ≠ 0) (h : n % 2 = 0) :
    trailingZeros bits n = trailingZeros bits (n / 2) + 1 := by
  rw [trailingZeros, if_neg hn, if_neg (by omega)]

/-- Shifting out the trailing zeros leaves the odd part. -/
theorem odd_part (bits : ℕ) {n : ℕ} (hn : n ≠ 0) :
    2 ^ trailingZeros bits n * (n >>> trailingZeros bits n) = n ∧
      (n >>> trailingZeros bits n) % 2 = 1 := by
  induction n using Nat.strong_induction_on with
  | _ n ih =>
    by_cases h : n % 2 = 1
    · rw [trailingZeros_odd h]
      simpa using h
    · rw [trailingZeros_even hn (by omega)]
      obtain ⟨he, ho⟩ := ih (n / 2) (by omega) (by omega)
      have hs : n >>> (trailingZeros bits (n / 2) + 1) =
          (n / 2) >>> trailingZeros bits (n / 2) := by
        rw [Nat.add_comm, Nat.shiftRight_add, Nat.shiftRight_one]
      rw [hs]
      refine ⟨?_, ho⟩
      calc 2 ^ (trailingZeros bits (n / 2) + 1) * (n / 2) >>> trailingZeros bits (n / 2)
          = 2 * (2 ^ trailingZeros bits (n / 2) *
              (n / 2) >>> trailingZeros bits (n / 2)) := by ring
        _ = 2 * (n / 2) := by rw [he]
        _ = n := by omega

theorem shift_trailingZeros_pos (bits : ℕ) {n : ℕ} (hn : 0 < n) : 0 < n >>> trailingZeros bits n := by
  have := (odd_part bits hn.ne').2
  by_contra hz
  rw [Nat.eq_zero_of_not_pos hz] at this
  contradiction

theorem shift_trailingZeros_le (bits n : ℕ) : n >>> trailingZeros bits n ≤ n := by
  rw [Nat.shiftRight_eq_div_pow]
  exact Nat.div_le_self _ _

theorem trailingZeros_two_pow (bits k : ℕ) : trailingZeros bits (2 ^ k) = k := by
  induction k with
  | zero => exact trailingZeros_odd rfl
  | succ k ih =>
    have he : 2 ^ (k + 1) / 2 = 2 ^ k := by rw [pow_succ, Nat.mul_div_cancel _ (by omega)]
    have hz : 2 ^ (k + 1) ≠ 0 := (Nat.two_pow_pos _).ne'
    rw [trailingZeros_even hz (by rw [pow_succ, Nat.mul_mod_left]), he, ih]

theorem isPowerOfTwo_iff {n : ℕ} : isPowerOfTwo n = true ↔ ∃ k, n = 2 ^ k := by
  simp only [isPowerOfTwo, beq_iff_eq]
  constructor
  · intro h
    exact ⟨n.log2, h⟩
  · rintro ⟨k, rfl⟩
    rw [Nat.log2_two_pow]

theorem coprime_two_pow {m : ℕ} (h : m % 2 = 1) (k : ℕ) : Nat.Coprime m (2 ^ k) :=
  Nat.Coprime.pow_right k (Nat.coprime_two_right.mpr (Nat.odd_iff.mpr h))

/-- Factors of two on the right are invisible to an odd left argument. -/
theorem gcd_odd_shift (bits : ℕ) {m n : ℕ} (hm : m % 2 = 1) (hn : n ≠ 0) :
    Nat.gcd m (n >>> trailingZeros bits n) = Nat.gcd m n := by
  conv_rhs => rw [← (odd_part bits hn).1]
  exact (Nat.Coprime.gcd_mul_left_cancel_right _ (coprime_two_pow hm _).symm).symm

theorem gcd_two_pow_mul {m n : ℕ} (hm : m % 2 = 1) (hn : n % 2 = 1) (a b : ℕ) :
    Nat.gcd (2 ^ a * m) (2 ^ b * n) = 2 ^ min a b * Nat.gcd m n := by
  rcases Nat.le_total a b with h | h
  · obtain ⟨c, rfl⟩ := Nat.exists_eq_add_of_le h
    rw [Nat.min_eq_left h, pow_add, Nat.mul_assoc, Nat.gcd_mul_left,
      Nat.Coprime.gcd_mul_left_cancel_right _ (coprime_two_pow hm c).symm]
  · obtain ⟨c, rfl⟩ := Nat.exists_eq_add_of_le h
    rw [Nat.min_eq_right h, pow_add, Nat.mul_assoc, Nat.gcd_mul_left,
      Nat.Coprime.gcd_mul_left_cancel _ (coprime_two_pow hn c).symm]

end CheckedArithmetic

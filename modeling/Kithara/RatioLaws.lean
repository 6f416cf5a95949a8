import Kithara.RoundedQuotients
import Kithara.SpanInverse

/-! What 128-bit fractions promise: sums, differences and products are exact and in lowest terms,
a product is refused only for its own size, and rounding to 32 binary digits is one rule whichever
path computes it. -/
namespace RatioLaws

open CheckedArithmetic SpanRatio SpanInverse RoundedQuotients

/-- An answer is the exact value in lowest terms, zero with denominator one. -/
def Exact (answer : Option Ratio) (value : ℚ) : Prop :=
  ∀ r, answer = some r → r.toRat = value ∧ Lowest r ∧ (r.numerator = 0 → r.denominator = nonZeroMin)

theorem lowest_zero {r : Ratio} (h : Lowest r) (hz : r.numerator = 0) : r.denominator = 1 := by
  rw [Lowest, hz, Nat.coprime_zero_left] at h
  exact PNat.eq h

theorem toRat_nonneg (r : Ratio) : 0 ≤ r.toRat := div_nonneg (Nat.cast_nonneg _) (Nat.cast_nonneg _)

theorem sub_negative {x y : Ratio} (h : x.toRat < y.toRat) : x.sub y = none := by
  cases hsub : x.sub y with
  | none => rfl
  | some r =>
    have hvalue := sub_toRat hsub
    have hpos := toRat_nonneg r
    linarith

theorem lowest_parts {r : Ratio} (h : Lowest r) :
    r.toRat.num = r.numerator ∧ r.toRat.den = r.denominator := by
  have hpos : (0 : ℤ) < (r.denominator : ℕ) := by exact_mod_cast r.denominator.pos
  have hcoprime : Nat.Coprime (r.numerator : ℤ).natAbs ((r.denominator : ℕ) : ℤ).natAbs := h
  have hvalue : r.toRat = ((r.numerator : ℤ) : ℚ) / (((r.denominator : ℕ) : ℤ) : ℚ) := by
    rw [Ratio.toRat, Int.cast_natCast, Int.cast_natCast]
  have hnum := Rat.num_div_eq_of_coprime hpos hcoprime
  have hden := Rat.den_div_eq_of_coprime hpos hcoprime
  rw [← hvalue] at hnum hden
  exact ⟨hnum, by exact_mod_cast hden⟩

theorem mul_refused {x y : Ratio} (hx : Lowest x) (hy : Lowest y) (h : x.mul y = none) :
    2 ^ 128 ≤ (x.toRat * y.toRat).num ∨ 2 ^ 128 ≤ (x.toRat * y.toRat).den := by
  obtain ⟨t, ht, _⟩ := product_eq hx hy
  have hvalue : t.toRat = x.toRat * y.toRat := by
    rw [new_toRat ht, Ratio.toRat, Ratio.toRat, PNat.mul_coe, Nat.cast_mul, Nat.cast_mul,
      div_mul_div_comm]
  obtain ⟨hnum, hden⟩ := lowest_parts (new_lowest ht)
  rw [← hvalue, hnum, hden]
  by_contra hsmall
  obtain ⟨hn, hd⟩ := not_or.mp hsmall
  have hsome := mul_of_new hx hy ht (by exact_mod_cast not_le.mp hn) (not_le.mp hd)
  rw [h] at hsome
  cases hsome

/-- The arithmetic of coprime fractions is exact, and the binary divisor is the gcd. -/
theorem arithmetic_exact :
    (∀ first second, divisor first second = Nat.gcd first second) ∧
    ∀ x y : Ratio, Lowest x → Lowest y →
      Exact (x.add y) (x.toRat + y.toRat) ∧ Exact (x.sub y) (x.toRat - y.toRat) ∧
      Exact (x.mul y) (x.toRat * y.toRat) ∧ (x.toRat < y.toRat → x.sub y = none) ∧
      (x.mul y = none →
        2 ^ 128 ≤ (x.toRat * y.toRat).num ∨ 2 ^ 128 ≤ (x.toRat * y.toRat).den) := by
  refine ⟨divisor_eq_gcd, fun x y hx hy => ⟨?_, ?_, ?_, sub_negative, mul_refused hx hy⟩⟩
  · intro r hr
    have hlowest := add_lowest hx hy hr
    exact ⟨add_toRat hr, hlowest, lowest_zero hlowest⟩
  · intro r hr
    have hlowest := sub_lowest hx hy hr
    exact ⟨sub_toRat hr, hlowest, lowest_zero hlowest⟩
  · intro r hr
    have hlowest := mul_lowest hx hy hr
    exact ⟨mul_toRat hr, hlowest, lowest_zero hlowest⟩

theorem arithmetic_exact_third :
    Exact ((⟨1, 3⟩ : Ratio).add ⟨1, 6⟩) ((⟨1, 3⟩ : Ratio).toRat + (⟨1, 6⟩ : Ratio).toRat) :=
  (arithmetic_exact.2 ⟨1, 3⟩ ⟨1, 6⟩ (by unfold Lowest; decide) (by unfold Lowest; decide)).1

/-- After `n` steps the digits are the quotient of the shifted remainder, and its remainder is
left. -/
theorem fractionalBits_eq {d : ℕ} (n : ℕ) {r : ℕ} (f : ℕ) (hr : r < d) :
    Ratio.fractionalBits d n r f = (r * 2 ^ n % d, f * 2 ^ n + r * 2 ^ n / d) := by
  induction n generalizing r f with
  | zero => simp [Ratio.fractionalBits, Nat.mod_eq_of_lt hr, Nat.div_eq_of_lt hr]
  | succ n ih =>
    simp only [Ratio.fractionalBits]
    split
    · next hdigit =>
      have hshift : r * 2 ^ (n + 1) = (r - (d - r)) * 2 ^ n + d * 2 ^ n := by
        rw [← Nat.add_mul, pow_succ, mul_comm (2 ^ n) 2, ← mul_assoc]
        congr 1
        omega
      rw [ih _ (by omega), hshift, Nat.add_mul_mod_self_left, Nat.add_mul_div_left _ _ (by omega)]
      congr 1
      ring
    · next hdigit =>
      have hshift : r * 2 ^ (n + 1) = r * 2 * 2 ^ n := by ring
      rw [ih _ (by omega), hshift]
      congr 1
      ring

def q32 (r : Ratio) : ℕ := rounded (r.numerator * 2 ^ 32) r.denominator

theorem q32_eq_floor (r : Ratio) : ⌊r.toRat * 2 ^ 32 + 1 / 2⌋₊ = q32 r := by
  have hcast : r.toRat * 2 ^ 32 = ((r.numerator * 2 ^ 32 : ℕ) : ℚ) / (r.denominator : ℕ) := by
    rw [Ratio.toRat, div_mul_eq_mul_div, Nat.cast_mul, Nat.cast_pow, Nat.cast_ofNat]
  rw [q32, ← rounded_eq_floor _ r.denominator.pos, hcast]

/-- The three paths to it: shifted up, shifted down with the highest bit dropped, divided. -/
def shiftedUp (r : Ratio) (bits : ℕ) : ℕ := r.numerator * 1 <<< (32 - bits)

def shiftedDown (r : Ratio) (bits : ℕ) : ℕ :=
  r.numerator >>> (bits - 32) +
    if (r.numerator &&& (1 <<< (bits - 32) - 1)) ≥ 1 <<< (bits - 32 - 1) then 1 else 0

def divided (r : Ratio) : ℕ :=
  let digits := Ratio.fractionalBits r.denominator 32 (r.numerator % r.denominator) 0
  r.numerator / r.denominator * 2 ^ 32 + digits.2 +
    if digits.1 ≥ r.denominator - digits.1 then 1 else 0

theorem q32_shiftedUp {r : Ratio} {k : ℕ} (hk : (r.denominator : ℕ) = 2 ^ k) (hle : k ≤ 32) :
    q32 r = shiftedUp r k := by
  have hpow : 2 ^ 32 = 2 ^ k * 2 ^ (32 - k) := by
    rw [← pow_add]
    congr 1
    omega
  have hnum : r.numerator * 2 ^ 32 = 2 ^ k * (r.numerator * 2 ^ (32 - k)) := by
    rw [hpow]
    ring
  rw [q32, hk, hnum, rounded_whole _ (Nat.two_pow_pos k), shiftedUp, Nat.one_shiftLeft]

theorem q32_shiftedDown {r : Ratio} {k : ℕ} (hk : (r.denominator : ℕ) = 2 ^ k) (hlt : 32 < k) :
    q32 r = shiftedDown r k := by
  have hpow : 2 ^ k = 2 ^ (k - 32) * 2 ^ 32 := by
    rw [← pow_add]
    congr 1
    omega
  have hhalf : 2 ^ (k - 32) = 2 * 2 ^ (k - 32 - 1) := by
    rw [← pow_succ']
    congr 1
    omega
  have hrest := Nat.mod_lt r.numerator (Nat.two_pow_pos (k - 32))
  have hsplit := rounded_split (r.numerator / 2 ^ (k - 32)) hrest
  rw [Nat.div_add_mod] at hsplit
  rw [q32, hk, hpow, rounded_mul_right (Nat.two_pow_pos 32), hsplit, shiftedDown,
    Nat.shiftRight_eq_div_pow, Nat.one_shiftLeft, Nat.one_shiftLeft,
    Nat.and_two_pow_sub_one_eq_mod]
  congr 1
  refine if_congr ?_ rfl rfl
  omega

theorem q32_divided (r : Ratio) : q32 r = divided r := by
  have hd : 0 < (r.denominator : ℕ) := r.denominator.pos
  rw [divided, fractionalBits_eq 32 0 (Nat.mod_lt _ hd), Nat.zero_mul, Nat.zero_add]
  have hrest := Nat.mod_lt (r.numerator % r.denominator * 2 ^ 32) hd
  have hnum : r.numerator * 2 ^ 32 =
      r.denominator * (r.numerator / r.denominator * 2 ^ 32 +
        r.numerator % r.denominator * 2 ^ 32 / r.denominator) +
      r.numerator % r.denominator * 2 ^ 32 % r.denominator := by
    calc r.numerator * 2 ^ 32
        = (r.denominator * (r.numerator / r.denominator) + r.numerator % r.denominator) * 2 ^ 32 :=
          by rw [Nat.div_add_mod]
      _ = r.denominator * (r.numerator / r.denominator * 2 ^ 32) +
          r.numerator % r.denominator * 2 ^ 32 := by rw [Nat.add_mul, Nat.mul_assoc]
      _ = _ := by rw [Nat.mul_add, Nat.add_assoc, Nat.div_add_mod]
  rw [q32, hnum]
  exact rounded_split _ hrest

theorem answered {β : Type} {n bound : ℕ} (f : ℕ → Option β) :
    ((if n < bound then some n else none) >>= f) = if n < bound then f n else none := by
  split
  · rfl
  · rfl

theorem checked_sum {β : Type} (a b digits up : ℕ) (f : ℕ → Option β) :
    (do
      let whole ← checkedMul 128 a b
      let sum ← checkedAdd 128 whole digits
      let total ← checkedAdd 128 sum up
      f total) =
    if a * b + digits + up < 2 ^ 128 then f (a * b + digits + up) else none := by
  by_cases hfits : a * b + digits + up < 2 ^ 128
  · have hwhole := checkedMul_eq_some.mpr ⟨rfl, show a * b < 2 ^ 128 by omega⟩
    have hsum := checkedAdd_eq_some.mpr ⟨rfl, show a * b + digits < 2 ^ 128 by omega⟩
    have htotal := checkedAdd_eq_some.mpr ⟨rfl, hfits⟩
    simp only [hwhole, hsum, htotal, Option.bind_eq_bind, Option.bind_some, if_pos hfits]
  · rw [if_neg hfits, Option.eq_none_iff_forall_ne_some]
    intro answer h
    simp only [Option.bind_eq_bind, Option.bind_eq_some_iff, checkedMul_eq_some,
      checkedAdd_eq_some] at h
    obtain ⟨whole, ⟨rfl, _⟩, sum, ⟨rfl, _⟩, total, ⟨rfl, hlt⟩, _⟩ := h
    exact hfits hlt

theorem nearestQ32_eq (r : Ratio) : r.nearestQ32 =
    if q32 r < 2 ^ 128 then Ratio.new (q32 r) (2 ^ 32) else none := by
  rw [Ratio.nearestQ32]
  split
  · next hpow =>
    obtain ⟨k, hk⟩ := isPowerOfTwo_iff.mp hpow
    simp only [hk, trailingZeros_two_pow]
    split
    · next hle =>
      rw [q32_shiftedUp hk hle, checkedMul]
      exact answered _
    · next hlt =>
      rw [q32_shiftedDown hk (by omega), checkedAdd]
      exact answered _
  · rw [q32_divided]
    exact checked_sum _ _ _ _ _

theorem answers_q32 (x : Ratio) :
    (∀ r, (if q32 x < 2 ^ 128 then Ratio.new (q32 x) (2 ^ 32) else none) = some r →
      r.toRat = (q32 x : ℚ) / 2 ^ 32 ∧ Lowest r) ∧
    ((if q32 x < 2 ^ 128 then Ratio.new (q32 x) (2 ^ 32) else none) = none ↔ 2 ^ 128 ≤ q32 x) := by
  split
  · next hfits =>
    obtain ⟨t, ht⟩ := new_isSome (q32 x) (2 ^ 32)
    rw [ht]
    constructor
    · rintro r hr
      obtain rfl := Option.some.inj hr
      refine ⟨?_, new_lowest ht⟩
      rw [new_toRat ht, PNat.pow_coe, Nat.cast_pow]
      rfl
    · simpa using hfits
  · next hover =>
    constructor
    · rintro r hr
      cases hr
    · simpa using hover

/-- Rounding to 32 binary digits is the nearest grid point, halves upward, in lowest terms, and is
refused exactly where its numerator leaves 128 bits; on a power of two both shifts agree with the
long division. -/
theorem nearestQ32_exact (x : Ratio) :
    (∀ r, x.nearestQ32 = some r →
      r.toRat = (⌊x.toRat * 2 ^ 32 + 1 / 2⌋₊ : ℚ) / 2 ^ 32 ∧ Lowest r) ∧
    (x.nearestQ32 = none ↔ 2 ^ 128 ≤ ⌊x.toRat * 2 ^ 32 + 1 / 2⌋₊) ∧
    ∀ k, (x.denominator : ℕ) = 2 ^ k → (k ≤ 32 → shiftedUp x k = divided x) ∧
      (32 < k → shiftedDown x k = divided x) := by
  rw [q32_eq_floor, nearestQ32_eq, ← and_assoc]
  refine ⟨?_, fun k hk => ?_⟩
  · exact answers_q32 x
  · rw [← q32_divided]
    exact ⟨fun hle => (q32_shiftedUp hk hle).symm, fun hlt => (q32_shiftedDown hk hlt).symm⟩

end RatioLaws

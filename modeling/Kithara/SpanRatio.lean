import Kithara.CheckedArithmetic
import Mathlib.Data.PNat.Basic
import Mathlib.Data.Rat.Defs
import Mathlib.Data.Nat.Cast.Field
import Mathlib.Algebra.Order.Field.Basic
import Mathlib.Algebra.Order.Ring.Rat
import Mathlib.Tactic.FieldSimp
import Mathlib.Tactic.Linarith
import Mathlib.Tactic.Positivity

/-! Nonnegative 128-bit fractions: the binary divisor, reduction and checked arithmetic.
`Ratio.toRat` is the exact value; every operation that answers is exact. -/
namespace SpanRatio

open CheckedArithmetic

/-- One pass of the binary loop drops the factors of two of `rest`, orders the pair and
subtracts; it answers once the difference vanishes. -/
def divisorLoop (shift odd rest : ℕ) (ho : 0 < odd) (hr : 0 < rest) : ℕ :=
  let rest' := rest >>> trailingZeros 128 rest
  if h : max odd rest' - min odd rest' = 0 then min odd rest' <<< shift
  else divisorLoop shift (min odd rest') (max odd rest' - min odd rest')
    (lt_min ho (shift_trailingZeros_pos 128 hr)) (Nat.pos_of_ne_zero h)
termination_by odd + rest
decreasing_by
  have := shift_trailingZeros_le 128 rest
  have := shift_trailingZeros_pos 128 hr
  omega

def divisor (first second : ℕ) : ℕ :=
  if hf : first = 0 then second
  else if hs : second = 0 then first
  else if isPowerOfTwo second then
    1 <<< min (trailingZeros 128 first) (trailingZeros 128 second)
  else
    divisorLoop (min (trailingZeros 128 first) (trailingZeros 128 second))
      (first >>> trailingZeros 128 first) second
      (shift_trailingZeros_pos 128 (Nat.pos_of_ne_zero hf)) (Nat.pos_of_ne_zero hs)

def quotient (numerator : ℕ) (denominator : ℕ+) : ℕ :=
  if isPowerOfTwo denominator then numerator >>> trailingZeros 128 denominator
  else numerator / denominator

theorem divisorLoop_eq_gcd (shift odd rest : ℕ) (ho : 0 < odd) (hr : 0 < rest)
    (hodd : odd % 2 = 1) : divisorLoop shift odd rest ho hr = Nat.gcd odd rest * 2 ^ shift := by
  induction odd, rest, ho, hr using divisorLoop.induct with
  | case1 odd rest ho hr rest' h =>
    have hg : Nat.gcd odd rest' = Nat.gcd odd rest := gcd_odd_shift 128 hodd hr.ne'
    have he : odd = rest' := by omega
    have hmin : min odd rest' = Nat.gcd odd rest' := by rw [← he, min_self, Nat.gcd_self]
    rw [divisorLoop, dif_pos h, Nat.shiftLeft_eq, ← hg]
    exact congrArg (· * 2 ^ shift) hmin
  | case2 odd rest ho hr rest' h ih =>
    have hg : Nat.gcd odd rest' = Nat.gcd odd rest := gcd_odd_shift 128 hodd hr.ne'
    have hr' : rest' % 2 = 1 := (odd_part 128 hr.ne').2
    have hm : min odd rest' % 2 = 1 := by
      rcases min_choice odd rest' with hc | hc <;> rw [hc] <;> assumption
    have hsub : Nat.gcd (min odd rest') (max odd rest' - min odd rest') = Nat.gcd odd rest' := by
      rw [Nat.gcd_sub_self_right (min_le_max)]
      rcases le_total odd rest' with hle | hle
      · rw [min_eq_left hle, max_eq_right hle]
      · rw [min_eq_right hle, max_eq_left hle, Nat.gcd_comm]
    rw [divisorLoop, dif_neg h, ih hm, hsub, hg]

/-- The binary divisor is the greatest common divisor, the power-of-two shortcut included. -/
theorem divisor_eq_gcd (first second : ℕ) : divisor first second = Nat.gcd first second := by
  simp only [divisor]
  split
  · next hf => rw [hf, Nat.gcd_zero_left]
  · next hf =>
    obtain ⟨hfe, hfo⟩ := odd_part 128 hf
    split
    · next hs => rw [hs, Nat.gcd_zero_right]
    · next hs =>
      obtain ⟨hse, hso⟩ := odd_part 128 hs
      have hgcd := gcd_two_pow_mul hfo hso (trailingZeros 128 first) (trailingZeros 128 second)
      rw [hfe, hse] at hgcd
      split
      · next hp =>
        obtain ⟨k, rfl⟩ := isPowerOfTwo_iff.mp hp
        rw [hgcd, trailingZeros_two_pow, Nat.shiftRight_eq_div_pow (2 ^ k),
          Nat.div_self (Nat.two_pow_pos k), Nat.gcd_one_right, Nat.shiftLeft_eq]
        ring
      · rw [divisorLoop_eq_gcd _ _ _ _ _ hfo, ← gcd_odd_shift 128 hfo hs, hgcd]
        ring

theorem quotient_eq_div (numerator : ℕ) (denominator : ℕ+) :
    quotient numerator denominator = numerator / denominator := by
  simp only [quotient]
  split
  · next hp =>
    obtain ⟨k, hk⟩ := isPowerOfTwo_iff.mp hp
    rw [hk, trailingZeros_two_pow, Nat.shiftRight_eq_div_pow]
  · rfl

@[ext] structure Ratio where
  numerator : ℕ
  denominator : ℕ+
  deriving DecidableEq, Repr

namespace Ratio

def new (numerator : ℕ) (denominator : ℕ+) : Option Ratio := do
  let common ← nonZero (divisor numerator denominator)
  let reduced ← nonZero (quotient denominator common)
  pure ⟨quotient numerator common, reduced⟩

def atDenominator (r : Ratio) (denominator : ℕ+) : Option ℕ :=
  checkedMul 128 r.numerator (quotient denominator r.denominator)

def common (first second : ℕ+) : Option ℕ+ := do
  let shared ← nonZero (divisor first second)
  let product ← checkedMul 128 (quotient first shared) second
  nonZero product

/-- Combines over the least common denominator; only the factor the denominators share can
divide the combined numerator, so the result is reduced by a divisor of that factor. -/
def combine (r other : Ratio) (op : ℕ → ℕ → Option ℕ) : Option Ratio := do
  let shared ← nonZero (divisor r.denominator other.denominator)
  let left ← checkedMul 128 r.numerator (quotient other.denominator shared)
  let right ← checkedMul 128 other.numerator (quotient r.denominator shared)
  let combined ← op left right
  if combined = 0 then new 0 nonZeroMin
  else
    let reduction ← nonZero (divisor combined shared)
    let product ← checkedMul 128 (quotient r.denominator shared)
      (quotient other.denominator reduction)
    let denominator ← nonZero product
    pure ⟨quotient combined reduction, denominator⟩

def add (r other : Ratio) : Option Ratio :=
  if other.numerator = 0 then some r
  else if r.numerator = 0 then some other
  else r.combine other (checkedAdd 128)

def sub (r other : Ratio) : Option Ratio :=
  if other.numerator = 0 then some r
  else r.combine other checkedSub

def mul (r other : Ratio) : Option Ratio :=
  if r.numerator = r.denominator then some other
  else if other.numerator = other.denominator then some r
  else do
    let first ← nonZero (divisor r.numerator other.denominator)
    let second ← nonZero (divisor other.numerator r.denominator)
    let numerator ← checkedMul 128 (quotient r.numerator first) (quotient other.numerator second)
    let product ← checkedMul 128 (quotient r.denominator second)
      (quotient other.denominator first)
    let denominator ← nonZero product
    pure ⟨numerator, denominator⟩

/-- The binary digits after the point, one long-division step each. -/
def fractionalBits (denominator : ℕ) : ℕ → ℕ → ℕ → ℕ × ℕ
  | 0, remainder, fractional => (remainder, fractional)
  | n + 1, remainder, fractional =>
    let complement := denominator - remainder
    if remainder ≥ complement then
      fractionalBits denominator n (remainder - complement) (fractional * 2 + 1)
    else fractionalBits denominator n (remainder * 2) (fractional * 2)

def nearestQ32 (r : Ratio) : Option Ratio := do
  let denominator : ℕ := r.denominator
  let numerator ←
    if isPowerOfTwo denominator then
      let bits := trailingZeros 128 denominator
      if bits ≤ 32 then checkedMul 128 r.numerator (1 <<< (32 - bits))
      else
        let bits := bits - 32
        let rounded := (r.numerator &&& ((1 <<< bits) - 1)) ≥ 1 <<< (bits - 1)
        checkedAdd 128 (r.numerator >>> bits) (if rounded then 1 else 0)
    else do
      let whole ← checkedMul 128 (r.numerator / denominator) (2 ^ 32)
      let digits := fractionalBits denominator 32 (r.numerator % denominator) 0
      let sum ← checkedAdd 128 whole digits.2
      checkedAdd 128 sum (if digits.1 ≥ denominator - digits.1 then 1 else 0)
  new numerator (2 ^ 32)

def sourceFrame (r : Ratio) : Option ℕ :=
  let frame := quotient r.numerator r.denominator
  if frame < 2 ^ 64 then some frame else none

/-- The exact value of a fraction. -/
def toRat (r : Ratio) : ℚ := r.numerator / (r.denominator : ℕ)

end Ratio

theorem nonZero_divisor {a b : ℕ} {g : ℕ+} (h : nonZero (divisor a b) = some g) :
    (g : ℕ) = Nat.gcd a b := by
  rw [nonZero_eq_some, divisor_eq_gcd] at h
  exact h.symm

theorem pnat_ne_zero (n : ℕ+) : ((n : ℕ) : ℚ) ≠ 0 := Nat.cast_ne_zero.mpr n.ne_zero

/-- Dividing both sides of a fraction by a common divisor keeps its value. -/
theorem div_common {a b g : ℕ} (hg : g ≠ 0) (ha : g ∣ a) (hb : g ∣ b) :
    ((a / g : ℕ) : ℚ) / ((b / g : ℕ) : ℚ) = (a : ℚ) / b := by
  have hg' : (g : ℚ) ≠ 0 := Nat.cast_ne_zero.mpr hg
  rw [Nat.cast_div ha hg', Nat.cast_div hb hg', div_div_div_cancel_right₀ hg']

theorem new_eq (n : ℕ) (d : ℕ+) : ∃ r, Ratio.new n d = some r ∧
    r.numerator = n / Nat.gcd n d ∧ (r.denominator : ℕ) = d / Nat.gcd n d := by
  have hg : 0 < Nat.gcd n d := Nat.gcd_pos_of_pos_right _ d.pos
  have hd : 0 < (d : ℕ) / Nat.gcd n d := Nat.div_pos (Nat.gcd_le_right _ d.pos) hg
  refine ⟨⟨n / Nat.gcd n d, ((d : ℕ) / Nat.gcd n d).toPNat hd⟩, ?_, rfl, rfl⟩
  simp only [Ratio.new, divisor_eq_gcd, quotient_eq_div, nonZero_pos hg, Option.bind_eq_bind,
    Option.bind_some]
  rw [show ((Nat.gcd n d).toPNat hg : ℕ) = Nat.gcd n d from rfl, nonZero_pos hd]
  rfl

theorem new_isSome (n : ℕ) (d : ℕ+) : ∃ r, Ratio.new n d = some r :=
  let ⟨r, h, _⟩ := new_eq n d
  ⟨r, h⟩

theorem new_toRat {n : ℕ} {d : ℕ+} {r : Ratio} (h : Ratio.new n d = some r) :
    r.toRat = (n : ℚ) / (d : ℕ) := by
  obtain ⟨r', hr', hn, hd⟩ := new_eq n d
  obtain rfl : r' = r := Option.some.inj (hr'.symm.trans h)
  rw [Ratio.toRat, hn, hd]
  exact div_common (Nat.gcd_pos_of_pos_right _ d.pos).ne' (Nat.gcd_dvd_left _ _)
    (Nat.gcd_dvd_right _ _)

theorem new_congr {n m : ℕ} {d e : ℕ+} (h : n * e = m * d) : Ratio.new n d = Ratio.new m e := by
  obtain ⟨r, hr, hrn, hrd⟩ := new_eq n d
  obtain ⟨s, hs, hsn, hsd⟩ := new_eq m e
  have hcr : Nat.Coprime r.numerator r.denominator := by
    rw [hrn, hrd]
    exact Nat.coprime_div_gcd_div_gcd (Nat.gcd_pos_of_pos_right _ d.pos)
  have hcs : Nat.Coprime s.numerator s.denominator := by
    rw [hsn, hsd]
    exact Nat.coprime_div_gcd_div_gcd (Nat.gcd_pos_of_pos_right _ e.pos)
  have hv : r.toRat = s.toRat := by
    rw [new_toRat hr, new_toRat hs, div_eq_div_iff (pnat_ne_zero d) (pnat_ne_zero e)]
    exact_mod_cast h
  have hx : r.numerator * s.denominator = s.numerator * r.denominator := by
    have := (div_eq_div_iff (pnat_ne_zero _) (pnat_ne_zero _)).mp hv
    exact_mod_cast this
  have hden : (r.denominator : ℕ) = s.denominator :=
    Nat.dvd_antisymm
      (hcr.symm.dvd_of_dvd_mul_left (Dvd.intro_left _ hx.symm))
      (hcs.symm.dvd_of_dvd_mul_left (Dvd.intro_left _ hx))
  have hnum : r.numerator = s.numerator := by
    rw [hden] at hx
    exact Nat.eq_of_mul_eq_mul_right s.denominator.pos hx
  rw [hr, hs]
  exact congrArg some (Ratio.ext hnum (PNat.eq hden))

theorem atDenominator_toRat {r : Ratio} {d : ℕ+} {v : ℕ} (h : r.atDenominator d = some v)
    (hd : (r.denominator : ℕ) ∣ d) : (v : ℚ) = r.toRat * (d : ℕ) := by
  rw [Ratio.atDenominator, quotient_eq_div, checkedMul_eq_some] at h
  obtain ⟨rfl, _⟩ := h
  rw [Nat.cast_mul, Nat.cast_div hd (pnat_ne_zero _), Ratio.toRat]
  ring

theorem atDenominator_div {r : Ratio} {d : ℕ+} {v : ℕ} (h : r.atDenominator d = some v)
    (hd : (r.denominator : ℕ) ∣ d) : (v : ℚ) / (d : ℕ) = r.toRat := by
  rw [atDenominator_toRat h hd, mul_div_cancel_right₀ _ (pnat_ne_zero d)]

theorem common_dvd {a b d : ℕ+} (h : Ratio.common a b = some d) :
    (a : ℕ) ∣ d ∧ (b : ℕ) ∣ d := by
  simp only [Ratio.common, Option.bind_eq_bind, Option.bind_eq_some_iff] at h
  obtain ⟨shared, hs, product, hp, hd⟩ := h
  have hg := nonZero_divisor hs
  rw [quotient_eq_div, hg, checkedMul_eq_some] at hp
  rw [nonZero_eq_some] at hd
  obtain ⟨hp, _⟩ := hp
  rw [← hd, ← hp]
  refine ⟨?_, Dvd.intro_left _ rfl⟩
  obtain ⟨c, hc⟩ := Nat.gcd_dvd_right (a : ℕ) b
  have hc' : (a : ℕ) / Nat.gcd a b * b = a * c := by
    calc (a : ℕ) / Nat.gcd a b * b
        = (a : ℕ) / Nat.gcd a b * (Nat.gcd a b * c) := by rw [← hc]
      _ = a * c := by rw [← Nat.mul_assoc, Nat.div_mul_cancel (Nat.gcd_dvd_left _ _)]
  exact ⟨c, hc'⟩

theorem common_lt {a b d : ℕ+} (h : Ratio.common a b = some d) : (d : ℕ) < 2 ^ 128 := by
  simp only [Ratio.common, Option.bind_eq_bind, Option.bind_eq_some_iff] at h
  obtain ⟨shared, _, product, hp, hd⟩ := h
  rw [← nonZero_eq_some.mp hd]
  exact (checkedMul_eq_some.mp hp).2

/-- What `combine` answers is exact for any operation that is exact on numerators. -/
theorem combine_toRat {op : ℕ → ℕ → Option ℕ} (sign : ℚ)
    (hop : ∀ a b c, op a b = some c → (c : ℚ) = a + sign * b) {r s t : Ratio}
    (h : r.combine s op = some t) : t.toRat = r.toRat + sign * s.toRat := by
  simp only [Ratio.combine, Option.bind_eq_bind, Option.bind_eq_some_iff] at h
  obtain ⟨shared, hshared, left, hleft, right, hright, combined, hcombined, h⟩ := h
  have hg := nonZero_divisor hshared
  rw [quotient_eq_div, checkedMul_eq_some] at hleft hright
  obtain ⟨hleft, _⟩ := hleft
  obtain ⟨hright, _⟩ := hright
  have hdr : (shared : ℕ) ∣ r.denominator := hg ▸ Nat.gcd_dvd_left _ _
  have hds : (shared : ℕ) ∣ s.denominator := hg ▸ Nat.gcd_dvd_right _ _
  have hsh := pnat_ne_zero shared
  have hrd := pnat_ne_zero r.denominator
  have hsd := pnat_ne_zero s.denominator
  have hval : (combined : ℚ) * shared =
      (r.toRat + sign * s.toRat) * (r.denominator * s.denominator) := by
    rw [hop _ _ _ hcombined, ← hleft, ← hright, Nat.cast_mul, Nat.cast_mul,
      Nat.cast_div hds hsh, Nat.cast_div hdr hsh, Ratio.toRat, Ratio.toRat]
    field_simp
  split at h
  · next hz =>
    rw [new_toRat h]
    rw [hz, Nat.cast_zero, zero_mul, eq_comm, mul_eq_zero] at hval
    have := hval.resolve_right (mul_ne_zero hrd hsd)
    rw [this]
    simp
  · next hz =>
    simp only [Option.bind_eq_some_iff, Option.pure_def, Option.some.injEq] at h
    obtain ⟨reduction, hreduction, product, hproduct, denominator, hdenominator, rfl⟩ := h
    have hgr := nonZero_divisor hreduction
    rw [quotient_eq_div, quotient_eq_div, checkedMul_eq_some] at hproduct
    rw [nonZero_eq_some] at hdenominator
    have hrc : (reduction : ℕ) ∣ combined := hgr ▸ Nat.gcd_dvd_left _ _
    have hrs : (reduction : ℕ) ∣ s.denominator := (hgr ▸ Nat.gcd_dvd_right _ _ : _ ∣ _).trans hds
    have hre := pnat_ne_zero reduction
    rw [Ratio.toRat, ← hdenominator, ← hproduct.1, quotient_eq_div, Nat.cast_mul,
      Nat.cast_div hrc hre, Nat.cast_div hdr hsh, Nat.cast_div hrs hre]
    field_simp
    linarith

theorem add_toRat {r s t : Ratio} (h : r.add s = some t) : t.toRat = r.toRat + s.toRat := by
  simp only [Ratio.add] at h
  split at h
  · next hz =>
    obtain rfl := Option.some.inj h
    simp [Ratio.toRat, hz]
  · split at h
    · next hz =>
      obtain rfl := Option.some.inj h
      simp [Ratio.toRat, hz]
    · rw [combine_toRat 1 ?_ h, one_mul]
      intro a b c hc
      rw [one_mul, ← (checkedAdd_eq_some.mp hc).1, Nat.cast_add]

theorem sub_toRat {r s t : Ratio} (h : r.sub s = some t) : t.toRat = r.toRat - s.toRat := by
  simp only [Ratio.sub] at h
  split at h
  · next hz =>
    obtain rfl := Option.some.inj h
    simp [Ratio.toRat, hz]
  · rw [combine_toRat (-1) ?_ h]
    · ring
    · intro a b c hc
      rw [← checkedSub_eq_some.mp hc, Nat.cast_add]
      ring

theorem mul_toRat {r s t : Ratio} (h : r.mul s = some t) : t.toRat = r.toRat * s.toRat := by
  simp only [Ratio.mul] at h
  split at h
  · next hu =>
    obtain rfl := Option.some.inj h
    rw [Ratio.toRat.eq_def r, hu, div_self (pnat_ne_zero _), one_mul]
  · split at h
    · next hu =>
      obtain rfl := Option.some.inj h
      rw [Ratio.toRat.eq_def s, hu, div_self (pnat_ne_zero _), mul_one]
    · simp only [Option.bind_eq_bind, Option.bind_eq_some_iff, Option.pure_def,
        Option.some.injEq] at h
      obtain ⟨first, hf, second, hs, numerator, hn, product, hp, denominator, hd, rfl⟩ := h
      have hgf := nonZero_divisor hf
      have hgs := nonZero_divisor hs
      simp only [quotient_eq_div, checkedMul_eq_some] at hn hp
      rw [nonZero_eq_some] at hd
      have hf0 := pnat_ne_zero first
      have hs0 := pnat_ne_zero second
      have hrd := pnat_ne_zero r.denominator
      have hsd := pnat_ne_zero s.denominator
      rw [Ratio.toRat, ← hd, ← hp.1, ← hn.1, Nat.cast_mul, Nat.cast_mul,
        Nat.cast_div (hgf ▸ Nat.gcd_dvd_left _ _ : (first : ℕ) ∣ _) hf0,
        Nat.cast_div (hgs ▸ Nat.gcd_dvd_left _ _ : (second : ℕ) ∣ _) hs0,
        Nat.cast_div (hgs ▸ Nat.gcd_dvd_right _ _ : (second : ℕ) ∣ _) hs0,
        Nat.cast_div (hgf ▸ Nat.gcd_dvd_right _ _ : (first : ℕ) ∣ _) hf0,
        Ratio.toRat, Ratio.toRat]
      field_simp

theorem sourceFrame_eq_some {r : Ratio} {f : ℕ} :
    r.sourceFrame = some f ↔ r.numerator / r.denominator = f ∧ f < 2 ^ 64 := by
  simp only [Ratio.sourceFrame, quotient_eq_div]
  split <;> simp only [Option.some.injEq, reduceCtorEq, false_iff] <;> omega

theorem new_div {n : ℕ} {d : ℕ+} {r : Ratio} (h : Ratio.new n d = some r) :
    r.numerator / r.denominator = n / d := by
  obtain ⟨r', hr', hn, hd⟩ := new_eq n d
  obtain rfl : r' = r := Option.some.inj (hr'.symm.trans h)
  have hg : 0 < Nat.gcd n d := Nat.gcd_pos_of_pos_right _ d.pos
  rw [hn, hd]
  calc n / Nat.gcd n d / (d / Nat.gcd n d)
      = Nat.gcd n d * (n / Nat.gcd n d) / (Nat.gcd n d * (d / Nat.gcd n d)) :=
        (Nat.mul_div_mul_left _ _ hg).symm
    _ = n / d := by
        rw [Nat.mul_div_cancel' (Nat.gcd_dvd_left _ _), Nat.mul_div_cancel' (Nat.gcd_dvd_right _ _)]

end SpanRatio

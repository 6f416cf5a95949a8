import Mathlib.Data.Int.GCD
import Mathlib.Data.Nat.ModEq
import Mathlib.Tactic.Ring

/-! Points of a regular grid, stamped in whole ticks. A second has `2 * half` ticks and `rate`
points; a stamp rounds down, and a stamp is read back as the nearest point, halves upward. Reading
back loses no point exactly when the rate is at most half the ticks, give or take the divisor the
two share. -/
namespace GridStamps

def stamp (half rate point : ℕ) : ℕ := point * (2 * half) / rate

/-- The point nearest to a tick. -/
def nearest (half rate tick : ℕ) : ℕ := (tick * rate + half) / (2 * half)

variable {half rate point other tick : ℕ}

theorem stamp_add_mod : stamp half rate point * rate + point * (2 * half) % rate =
    point * (2 * half) := by
  rw [stamp, Nat.mul_comm, Nat.div_add_mod]

/-- What rounding down loses is a multiple of the shared divisor, so it stays that far below the
rate. -/
theorem lost_le (hrate : 0 < rate) :
    point * (2 * half) % rate + Nat.gcd (2 * half) rate ≤ rate := by
  have hlt := Nat.mod_lt (point * (2 * half)) hrate
  have hdvd : Nat.gcd (2 * half) rate ∣ point * (2 * half) % rate :=
    (Nat.dvd_mod_iff (Nat.gcd_dvd_right _ _)).mpr
      (Dvd.dvd.mul_left (Nat.gcd_dvd_left _ _) point)
  obtain ⟨lost, hlost⟩ := hdvd
  obtain ⟨parts, hparts⟩ := Nat.gcd_dvd_right (2 * half) rate
  have hfew : lost < parts := by
    apply Nat.lt_of_mul_lt_mul_left (a := Nat.gcd (2 * half) rate)
    rwa [← hlost, ← hparts]
  calc point * (2 * half) % rate + Nat.gcd (2 * half) rate
      = Nat.gcd (2 * half) rate * (lost + 1) := by rw [hlost, Nat.mul_succ]
    _ ≤ Nat.gcd (2 * half) rate * parts := Nat.mul_le_mul_left _ hfew
    _ = rate := hparts.symm

theorem stamp_le_stamp (h : point ≤ other) : stamp half rate point ≤ stamp half rate other :=
  Nat.div_le_div_right (Nat.mul_le_mul_right _ h)

theorem lt_of_stamp_lt (hrate : 0 < rate) (h : stamp half rate point < tick) :
    point * (2 * half) < tick * rate :=
  (Nat.div_lt_iff_lt_mul hrate).mp h

theorem nearest_stamp (hhalf : 0 < half) (hrate : 0 < rate)
    (hfine : rate ≤ half + Nat.gcd (2 * half) rate) (point : ℕ) :
    nearest half rate (stamp half rate point) = point := by
  have hlost : point * (2 * half) % rate + Nat.gcd (2 * half) rate ≤ rate := lost_le hrate
  have hsum : stamp half rate point * rate + point * (2 * half) % rate = point * (2 * half) :=
    stamp_add_mod
  rw [nearest]
  apply Nat.div_eq_of_lt_le
  · omega
  · rw [Nat.succ_mul]
    omega

end GridStamps

import Mathlib.Algebra.GroupWithZero.Nat
import Mathlib.Algebra.BigOperators.Group.List.Basic
import Mathlib.Algebra.Group.Nat.Defs
import Mathlib.Algebra.Order.Group.Nat
import Mathlib.Order.Monotone.Basic
import Mathlib.Data.List.Basic
import Mathlib.Data.Nat.Notation

/-! Half-open tiles between the values of a monotone sequence of boundaries, some of them empty,
and the binary search for the tile that holds a point. -/
namespace TilingSearch

section Search

variable {α : Type*} [LinearOrder α] {P : ℕ → α} {b : α} {lo hi i n : ℕ}

/-- The tile of `b` among those from `lo` below `hi`. -/
def bisect (P : ℕ → α) (b : α) (lo hi : ℕ) : Option ℕ :=
  if _ : lo < hi then
    if b < P (lo + (hi - lo) / 2) then bisect P b lo (lo + (hi - lo) / 2)
    else if P (lo + (hi - lo) / 2 + 1) ≤ b then bisect P b (lo + (hi - lo) / 2 + 1) hi
    else some (lo + (hi - lo) / 2)
  else none
termination_by hi - lo

theorem bisect_sound (h : bisect P b lo hi = some i) : lo ≤ i ∧ i < hi ∧ P i ≤ b ∧ b < P (i + 1) := by
  induction lo, hi using bisect.induct P b with
  | case1 lo hi hlt hbelow ih =>
    rw [bisect, dif_pos hlt, if_pos hbelow] at h
    obtain ⟨h1, h2, h3⟩ := ih h
    exact ⟨h1, by omega, h3⟩
  | case2 lo hi hlt hbelow habove ih =>
    rw [bisect, dif_pos hlt, if_neg hbelow, if_pos habove] at h
    obtain ⟨h1, h2, h3⟩ := ih h
    exact ⟨by omega, h2, h3⟩
  | case3 lo hi hlt hbelow habove =>
    rw [bisect, dif_pos hlt, if_neg hbelow, if_neg habove] at h
    obtain rfl := Option.some.inj h
    exact ⟨by omega, by omega, not_lt.mp hbelow, not_le.mp habove⟩
  | case4 lo hi hge =>
    rw [bisect, dif_neg hge] at h
    cases h

/-- Empty tiles on the way decide nothing wrong: the boundaries still ascend past them. -/
theorem bisect_complete (hP : Monotone P) (hlo : lo ≤ i) (hhi : i < hi) (hfrom : P i ≤ b)
    (hto : b < P (i + 1)) : bisect P b lo hi = some i := by
  induction lo, hi using bisect.induct P b with
  | case1 lo hi hlt hbelow ih =>
    rw [bisect, dif_pos hlt, if_pos hbelow]
    refine ih hlo ?_
    by_contra hge
    exact absurd (hbelow.trans_le (hP (not_lt.mp hge))) (not_lt.mpr hfrom)
  | case2 lo hi hlt hbelow habove ih =>
    rw [bisect, dif_pos hlt, if_neg hbelow, if_pos habove]
    refine ih ?_ hhi
    by_contra hle
    exact absurd (hto.trans_le ((hP (by omega)).trans habove)) (lt_irrefl b)
  | case3 lo hi hlt hbelow habove =>
    rw [bisect, dif_pos hlt, if_neg hbelow, if_neg habove]
    rcases Nat.lt_trichotomy (lo + (hi - lo) / 2) i with hless | heq | hmore
    · exact absurd ((hP (show lo + (hi - lo) / 2 + 1 ≤ i by omega)).trans hfrom) habove
    · rw [heq]
    · exact absurd (hto.trans_le (hP (show i + 1 ≤ lo + (hi - lo) / 2 by omega))) hbelow
  | case4 lo hi hge => omega

theorem bisect_eq_some (hP : Monotone P) :
    bisect P b 0 n = some i ↔ i < n ∧ P i ≤ b ∧ b < P (i + 1) := by
  constructor
  · intro h
    exact (bisect_sound h).2
  · rintro ⟨hi, hfrom, hto⟩
    exact bisect_complete hP (Nat.zero_le i) hi hfrom hto

theorem tile_unique (hP : Monotone P) {j : ℕ} (hi : P i ≤ b ∧ b < P (i + 1))
    (hj : P j ≤ b ∧ b < P (j + 1)) : i = j := by
  rcases Nat.lt_trichotomy i j with hlt | heq | hlt
  · exact absurd (hi.2.trans_le ((hP hlt).trans hj.1)) (lt_irrefl b)
  · exact heq
  · exact absurd (hj.2.trans_le ((hP hlt).trans hi.1)) (lt_irrefl b)

theorem tile_exists (hfrom : P 0 ≤ b) (hto : b < P n) : ∃ i < n, P i ≤ b ∧ b < P (i + 1) := by
  induction n with
  | zero => exact absurd hto (not_lt.mpr hfrom)
  | succ n ih =>
    by_cases hlast : b < P n
    · obtain ⟨i, hi, hrest⟩ := ih hlast
      exact ⟨i, by omega, hrest⟩
    · exact ⟨n, by omega, not_lt.mp hlast, hto⟩

end Search

/-- Where the tile of an index starts: the origin and the lengths before it. -/
def boundary (origin : ℕ) (lengths : List ℕ) (i : ℕ) : ℕ := origin + (lengths.take i).sum

@[simp] theorem boundary_zero (origin : ℕ) (lengths : List ℕ) :
    boundary origin lengths 0 = origin := by
  simp [boundary]

theorem boundary_succ {origin i : ℕ} {lengths : List ℕ} {length : ℕ}
    (h : lengths[i]? = some length) :
    boundary origin lengths (i + 1) = boundary origin lengths i + length := by
  rw [boundary, boundary, List.take_add_one, h, Option.toList_some, List.sum_append,
    List.sum_singleton, Nat.add_assoc]

theorem boundary_cons (origin length i : ℕ) (lengths : List ℕ) :
    boundary origin (length :: lengths) (i + 1) = boundary (origin + length) lengths i := by
  rw [boundary, boundary, List.take_succ_cons, List.sum_cons, Nat.add_assoc]

theorem boundary_mono (origin : ℕ) (lengths : List ℕ) : Monotone (boundary origin lengths) := by
  refine monotone_nat_of_le_succ fun i => ?_
  cases h : lengths[i]? with
  | some length =>
    rw [boundary_succ h]
    exact Nat.le_add_right _ _
  | none =>
    rw [boundary, boundary, List.take_add_one, h, Option.toList_none, List.append_nil]

theorem boundary_le (origin : ℕ) (lengths : List ℕ) (i : ℕ) :
    boundary origin lengths i ≤ origin + lengths.sum := by
  have hsum : lengths.sum = (lengths.take i).sum + (lengths.drop i).sum := by
    rw [← List.sum_append, List.take_append_drop]
  rw [boundary, hsum]
  omega

end TilingSearch

import Mathlib.Data.List.AList
import Mathlib.Algebra.BigOperators.Group.Finset.Basic
import Mathlib.Algebra.GroupWithZero.Nat

/-! Sums over a table of values by key: over the keys that satisfy a test, and group by group. -/
namespace KeyedSums

variable {κ ν γ δ : Type*} [DecidableEq κ] [DecidableEq γ]

abbrev Table (κ ν : Type*) := AList fun _ : κ => ν

/-- The sum of the weights of the entries whose keys pass the test. -/
def sumOn (p : κ → Bool) (w : ν → ℕ) (m : Table κ ν) : ℕ :=
  ((m.entries.filter fun e => p e.1).map fun e => w e.2).sum

/-- The weight of what a table holds under one key. -/
def worth (w : ν → ℕ) (m : Table κ ν) (k : κ) : ℕ := (m.lookup k).elim 0 w

def keep (p : κ → Bool) (m : Table κ ν) : Table κ ν :=
  ⟨m.entries.filter fun e => p e.1, m.nodupKeys.sublist List.filter_sublist⟩

variable {p : κ → Bool} {w : ν → ℕ} {m : Table κ ν} {k : κ}

theorem entries_erase (m : Table κ ν) (k : κ) : (m.erase k).entries = m.entries.kerase k := rfl

theorem worth_of_mem {e : Sigma fun _ : κ => ν} (he : e ∈ m.entries) : worth w m e.1 = w e.2 := by
  have hlookup : m.lookup e.1 = some e.2 := AList.mem_lookup_iff.mpr he
  simp only [worth, hlookup, Option.elim_some]

theorem worth_of_notMem (h : k ∉ m) : worth w m k = 0 := by
  simp only [worth, AList.lookup_eq_none.mpr h, Option.elim_none]

theorem sumOn_eq : sumOn p w m = ∑ k ∈ m.keys.toFinset with p k, worth w m k := by
  have hkeys : ((m.entries.filter fun e => p e.1).map fun e => w e.2) =
      (m.keys.filter p).map (worth w m) := by
    rw [AList.keys, List.keys, List.filter_map, List.map_map]
    apply List.map_congr_left
    intro e he
    exact (worth_of_mem (List.mem_of_mem_filter he)).symm
  rw [sumOn, hkeys, ← List.toFinset_filter, List.sum_toFinset _ (m.keys_nodup.filter _)]

theorem lookup_keep (p : κ → Bool) (m : Table κ ν) (k : κ) :
    (keep p m).lookup k = if p k then m.lookup k else none := by
  apply Option.ext
  intro v
  have hkeep : v ∈ (keep p m).lookup k ↔ (⟨k, v⟩ : Sigma fun _ : κ => ν) ∈ m.entries ∧ p k := by
    rw [AList.mem_lookup_iff]
    exact List.mem_filter
  rw [← Option.mem_def, hkeep]
  by_cases hp : p k = true
  · rw [if_pos hp, ← Option.mem_def, AList.mem_lookup_iff]
    exact and_iff_left hp
  · rw [if_neg hp]
    simp [hp]

theorem sumOn_congr {m' : Table κ ν} (h : ∀ k, p k = true → m'.lookup k = m.lookup k) :
    sumOn p w m' = sumOn p w m := by
  simp only [sumOn_eq]
  apply Finset.sum_congr
  · ext k
    simp only [Finset.mem_filter, List.mem_toFinset, ← AList.mem_keys, ← AList.lookup_isSome]
    constructor
    · rintro ⟨hk, hp⟩
      exact ⟨by rwa [← h k hp], hp⟩
    · rintro ⟨hk, hp⟩
      exact ⟨by rwa [h k hp], hp⟩
  · intro k hk
    rw [worth, worth, h k (Finset.mem_filter.mp hk).2]

theorem sumOn_split (p : κ → Bool) (w : ν → ℕ) (m : Table κ ν) (k : κ) :
    sumOn p w m = sumOn (fun j => p j && j ≠ k) w m + if p k then worth w m k else 0 := by
  simp only [sumOn_eq]
  by_cases hk : k ∈ m.keys.toFinset.filter (p ·)
  · rw [← Finset.sum_erase_add _ _ hk, if_pos (Finset.mem_filter.mp hk).2]
    congr 2
    ext j
    simp [and_comm, and_left_comm, and_assoc]
  · have hzero : (if p k then worth w m k else 0) = 0 := by
      by_cases hp : p k = true
      · rw [if_pos hp]
        apply worth_of_notMem
        intro hmem
        exact hk (Finset.mem_filter.mpr ⟨List.mem_toFinset.mpr (AList.mem_keys.mp hmem), hp⟩)
      · rw [if_neg hp]
    rw [hzero, add_zero]
    congr 1
    ext j
    simp only [Finset.mem_filter, Bool.and_eq_true, decide_eq_true_eq]
    constructor
    · rintro ⟨hj, hp⟩
      refine ⟨hj, hp, ?_⟩
      rintro rfl
      exact hk (Finset.mem_filter.mpr ⟨hj, hp⟩)
    · rintro ⟨hj, hp, _⟩
      exact ⟨hj, hp⟩

theorem sumOn_erase (p : κ → Bool) (w : ν → ℕ) (m : Table κ ν) (k : κ) :
    sumOn p w (m.erase k) = sumOn (fun j => p j && j ≠ k) w m := by
  simp only [sumOn_eq]
  apply Finset.sum_congr
  · ext j
    simp only [Finset.mem_filter, List.mem_toFinset, ← AList.mem_keys, AList.mem_erase,
      Bool.and_eq_true, decide_eq_true_eq]
    tauto
  · intro j hj
    have hne : j ≠ k := by
      have hp := (Finset.mem_filter.mp hj).2
      simp only [Bool.and_eq_true, decide_eq_true_eq] at hp
      exact hp.2
    rw [worth, worth, AList.lookup_erase_ne hne]

theorem sumOn_insert (p : κ → Bool) (w : ν → ℕ) (m : Table κ ν) (k : κ) (v : ν) :
    sumOn p w (m.insert k v) = sumOn (fun j => p j && j ≠ k) w m + if p k then w v else 0 := by
  rw [sumOn_split p w (m.insert k v) k]
  congr 1
  · rw [← sumOn_erase p w m k, ← sumOn_erase p w (m.insert k v) k]
    simp only [sumOn, entries_erase, AList.entries_insert, List.kerase_cons_eq]
  · rw [worth, AList.lookup_insert, Option.elim_some]

theorem sumOn_add_not (p : κ → Bool) (w : ν → ℕ) (m : Table κ ν) :
    sumOn p w m + sumOn (fun k => !p k) w m = sumOn (fun _ => true) w m := by
  simp only [sumOn_eq, Bool.not_eq_true', Finset.filter_true, Bool.eq_false_iff]
  exact Finset.sum_filter_add_sum_filter_not _ _ _

theorem sumOn_le (p : κ → Bool) (w : ν → ℕ) (m : Table κ ν) :
    sumOn p w m ≤ sumOn (fun _ => true) w m := by
  rw [← sumOn_add_not p w m]
  exact Nat.le_add_right _ _

/-- The entries named by a list without repetition. -/
theorem sumOn_mem {keys : List κ} (hnodup : keys.Nodup) (hsub : ∀ k ∈ keys, k ∈ m) :
    sumOn (fun k => k ∈ keys) w m = (keys.map (worth w m)).sum := by
  rw [sumOn_eq, ← List.sum_toFinset _ hnodup]
  congr 1
  ext k
  simp only [decide_eq_true_eq, Finset.mem_filter, List.mem_toFinset]
  exact ⟨fun h => h.2, fun h => ⟨AList.mem_keys.mp (hsub k h), h⟩⟩

/-- A table whose keys fall into the groups another names is the sum of its groups. -/
theorem sumOn_groups (g : κ → γ) (w : ν → ℕ) (m : Table κ ν) (groups : Finset γ)
    (hcover : ∀ k ∈ m, g k ∈ groups) :
    sumOn (fun _ => true) w m = ∑ c ∈ groups, sumOn (fun k => g k = c) w m := by
  simp only [sumOn_eq, Finset.filter_true, decide_eq_true_eq]
  apply (Finset.sum_fiberwise_of_maps_to _ _).symm
  intro k hk
  exact hcover k (AList.mem_keys.mpr (List.mem_toFinset.mp hk))

end KeyedSums

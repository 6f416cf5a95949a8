import Mathlib.Data.List.AList
import Mathlib.Algebra.Group.Nat.Defs

/-! The pins that bar an asset root from eviction, counted apart by what each has to outlive, and
the set of roots that belongs on disk. -/
namespace AssetPins

/-- What a pin has to outlive: the process, for an unfinished write, or its reader alone. -/
inductive PinDurability where
  | durable
  | local
  deriving DecidableEq

def maxCount : ℕ := 2 ^ 32 - 1

structure PinCounts where
  durable : ℕ
  «local» : ℕ
  deriving DecidableEq

namespace PinCounts

def none : PinCounts := ⟨0, 0⟩

def isPinned (counts : PinCounts) : Bool := counts.durable > 0 || counts.local > 0

/-- One pin more, and whether the root enters the durable set. -/
def pin (counts : PinCounts) : PinDurability → PinCounts × Bool
  | .durable =>
    let durable := min (counts.durable + 1) maxCount
    ({ counts with durable := durable }, durable = 1)
  | .local => ({ counts with «local» := min (counts.local + 1) maxCount }, false)

/-- One pin less, and whether the root leaves the durable set. -/
def unpin (counts : PinCounts) : PinDurability → PinCounts × Bool
  | .durable => ({ counts with durable := counts.durable - 1 }, counts.durable = 1)
  | .local => ({ counts with «local» := counts.local - 1 }, false)

def of (counts : PinCounts) : PinDurability → ℕ
  | .durable => counts.durable
  | .local => counts.local

theorem pin_isPinned (counts : PinCounts) (d : PinDurability) : (counts.pin d).1.isPinned = true := by
  cases d with
  | durable =>
    apply Bool.or_eq_true_iff.mpr
    exact .inl (decide_eq_true (lt_min (Nat.succ_pos _) (by decide)))
  | «local» =>
    apply Bool.or_eq_true_iff.mpr
    exact .inr (decide_eq_true (lt_min (Nat.succ_pos _) (by decide)))

theorem isPinned_iff {counts : PinCounts} : counts.isPinned = true ↔ ∃ d, 0 < counts.of d := by
  constructor
  · intro h
    rcases Bool.or_eq_true_iff.mp h with h | h
    · exact ⟨.durable, of_decide_eq_true h⟩
    · exact ⟨.local, of_decide_eq_true h⟩
  · rintro ⟨d, hd⟩
    cases d with
    | durable => exact Bool.or_eq_true_iff.mpr (.inl (decide_eq_true hd))
    | «local» => exact Bool.or_eq_true_iff.mpr (.inr (decide_eq_true hd))

theorem unpin_of (counts : PinCounts) (d d' : PinDurability) :
    (counts.unpin d).1.of d' = if d' = d then counts.of d' - 1 else counts.of d' := by
  cases d <;> cases d' <;> rfl

theorem pin_of {counts : PinCounts} {d : PinDurability} (h : counts.of d < maxCount)
    (d' : PinDurability) :
    (counts.pin d).1.of d' = if d' = d then counts.of d' + 1 else counts.of d' := by
  cases d <;> cases d' <;> first
    | rfl
    | exact Nat.min_eq_left h

end PinCounts

variable {Root : Type*} [DecidableEq Root]

variable (Root) in
structure PinsIndex where
  pins : AList fun _ : Root => PinCounts
  held : ∀ root, ∀ counts ∈ pins.lookup root, counts.isPinned = true

namespace PinsIndex

def empty : PinsIndex Root := ⟨∅, fun _ _ h => absurd h (by simp)⟩

def count (index : PinsIndex Root) (root : Root) : PinCounts := (index.pins.lookup root).getD .none

/-- Whether the root was newly pinned, and whether the durable set changed. -/
def add (index : PinsIndex Root) (root : Root) (d : PinDurability) :
    PinsIndex Root × Bool × Bool :=
  let pinned := (index.count root).pin d
  (⟨index.pins.insert root pinned.1, by
      intro root' counts hcounts
      by_cases h : root' = root
      · subst h
        rw [AList.lookup_insert] at hcounts
        rw [← Option.mem_some_iff.mp hcounts]
        exact PinCounts.pin_isPinned _ _
      · rw [AList.lookup_insert_ne h] at hcounts
        exact index.held root' counts hcounts⟩,
    (index.pins.lookup root).isNone, pinned.2)

/-- Whether the root is fully unpinned, and whether the durable set changed. -/
def remove (index : PinsIndex Root) (root : Root) (d : PinDurability) :
    PinsIndex Root × Bool × Bool :=
  match index.pins.lookup root with
  | none => (index, false, false)
  | some counts =>
    let unpinned := counts.unpin d
    if h : unpinned.1.isPinned = true then
      (⟨index.pins.insert root unpinned.1, by
          intro root' counts' hcounts
          by_cases hroot : root' = root
          · subst hroot
            rw [AList.lookup_insert] at hcounts
            rw [← Option.mem_some_iff.mp hcounts]
            exact h
          · rw [AList.lookup_insert_ne hroot] at hcounts
            exact index.held root' counts' hcounts⟩,
        false, unpinned.2)
    else
      (⟨index.pins.erase root, by
          intro root' counts' hcounts
          by_cases hroot : root' = root
          · subst hroot
            rw [AList.lookup_erase] at hcounts
            cases hcounts
          · rw [AList.lookup_erase_ne hroot] at hcounts
            exact index.held root' counts' hcounts⟩,
        true, unpinned.2)

def snapshot (index : PinsIndex Root) : List Root := index.pins.keys

def durableRoots (index : PinsIndex Root) : List Root :=
  (index.pins.entries.filter fun e => e.2.durable > 0).map Sigma.fst

/-- Whoever set a pin read back from disk is gone, so one durable pin stands for it. -/
def hydratedCounts : PinCounts := ⟨1, 0⟩

def hydrate (roots : List Root) : PinsIndex Root where
  pins := roots.foldr (fun root pins => pins.insert root hydratedCounts) ∅
  held := by
    induction roots with
    | nil => exact fun _ _ h => absurd h (by simp)
    | cons root roots ih =>
      intro root' counts hcounts
      rw [List.foldr_cons] at hcounts
      by_cases h : root' = root
      · subst h
        rw [AList.lookup_insert] at hcounts
        rw [← Option.mem_some_iff.mp hcounts]
        rfl
      · rw [AList.lookup_insert_ne h] at hcounts
        exact ih root' counts hcounts

variable {index : PinsIndex Root} {root root' : Root} {d : PinDurability}

theorem mem_snapshot : root ∈ index.snapshot ↔ ∃ d, 0 < (index.count root).of d := by
  rw [snapshot, ← AList.mem_keys, ← AList.lookup_isSome, count]
  cases hlookup : index.pins.lookup root with
  | none =>
    simp only [Option.isSome_none, Option.getD_none, Bool.false_eq_true, false_iff, not_exists]
    intro d
    cases d <;> exact Nat.lt_irrefl 0
  | some counts =>
    simp only [Option.isSome_some, Option.getD_some, true_iff]
    exact PinCounts.isPinned_iff.mp (index.held root counts hlookup)

theorem mem_durableRoots : root ∈ index.durableRoots ↔ 0 < (index.count root).of .durable := by
  simp only [durableRoots, List.mem_map, List.mem_filter, count, PinCounts.of]
  constructor
  · rintro ⟨⟨root, counts⟩, ⟨hmem, hdurable⟩, rfl⟩
    have hlookup : index.pins.lookup root = some counts := AList.mem_lookup_iff.mpr hmem
    simpa [hlookup] using hdurable
  · intro h
    cases hlookup : index.pins.lookup root with
    | none =>
      rw [hlookup] at h
      exact absurd h (Nat.lt_irrefl 0)
    | some counts =>
      rw [hlookup] at h
      exact ⟨⟨root, counts⟩, ⟨AList.mem_lookup_iff.mp hlookup, decide_eq_true h⟩, rfl⟩

@[simp] theorem count_empty : (empty : PinsIndex Root).count root = .none := by
  simp [count, empty]

@[simp] theorem count_add : (index.add root d).1.count root' =
    if root' = root then ((index.count root).pin d).1 else index.count root' := by
  split
  · rename_i h
    rw [h]
    simp [add, count]
  · rename_i h
    simp [add, count, AList.lookup_insert_ne h]

theorem unpin_none : (PinCounts.none.unpin d).1 = .none := by
  cases d <;> rfl

theorem not_isPinned {counts : PinCounts} (h : ¬ counts.isPinned = true) : counts = .none := by
  obtain ⟨durable, «local»⟩ := counts
  simp only [PinCounts.isPinned, gt_iff_lt, Bool.or_eq_true, decide_eq_true_eq, not_or, not_lt,
    Nat.le_zero] at h
  rw [h.1, h.2]
  rfl

@[simp] theorem count_remove : (index.remove root d).1.count root' =
    if root' = root then ((index.count root).unpin d).1 else index.count root' := by
  cases hlookup : index.pins.lookup root with
  | none =>
    have hsame : (index.remove root d).1 = index := by
      simp only [remove, hlookup]
    rw [hsame]
    split
    · rename_i h
      rw [h, count, hlookup]
      exact unpin_none.symm
    · rfl
  | some counts =>
    by_cases hpinned : (counts.unpin d).1.isPinned = true
    · split
      · rename_i h
        rw [h]
        simp [remove, hlookup, hpinned, count]
      · rename_i h
        simp [remove, hlookup, hpinned, count, AList.lookup_insert_ne h]
    · have hgone : (index.remove root d).1.pins = index.pins.erase root := by
        simp only [remove, hlookup, dif_neg hpinned]
      split
      · rename_i h
        rw [h, count, count, hgone, hlookup, AList.lookup_erase]
        exact (not_isPinned hpinned).symm
      · rename_i h
        rw [count, count, hgone, AList.lookup_erase_ne h]

theorem count_hydrate (roots : List Root) : (hydrate roots).count root =
    if root ∈ roots then hydratedCounts else .none := by
  induction roots with
  | nil => simp [hydrate, count]
  | cons root' roots ih =>
    simp only [hydrate, count, List.foldr_cons, List.mem_cons] at ih ⊢
    by_cases h : root = root'
    · rw [h, AList.lookup_insert]
      simp
    · rw [AList.lookup_insert_ne h, ih]
      simp [h]

end PinsIndex

end AssetPins

import Mathlib.Data.List.Basic

/-! A first-in first-out ring of fixed capacity: a push on a full ring gives the item back. -/
namespace BoundedRing

structure Ring (α : Type*) (capacity : ℕ) where
  items : List α
  bounded : items.length ≤ capacity

variable {α : Type*} {capacity : ℕ}

namespace Ring

def empty : Ring α capacity := ⟨[], Nat.zero_le _⟩

def isFull (r : Ring α capacity) : Bool := r.items.length = capacity

def tryPush (r : Ring α capacity) (x : α) : Option (Ring α capacity) :=
  if h : r.items.length < capacity then some ⟨r.items ++ [x], by simpa using Nat.succ_le_of_lt h⟩ else none

def tryPop (r : Ring α capacity) : Option (α × Ring α capacity) :=
  match r with
  | ⟨[], _⟩ => none
  | ⟨x :: xs, h⟩ => some (x, ⟨xs, Nat.le_of_succ_le h⟩)

theorem tryPush_eq_some {r r' : Ring α capacity} {x : α} (h : r.tryPush x = some r') :
    r'.items = r.items ++ [x] := by
  simp only [tryPush] at h
  split at h
  · cases h
    rfl
  · cases h

theorem tryPush_isSome {r : Ring α capacity} {x : α} (h : r.items.length < capacity) :
    ∃ r', r.tryPush x = some r' := by
  simp only [tryPush]
  rw [dif_pos h]
  exact ⟨_, rfl⟩

theorem tryPop_eq_some {r r' : Ring α capacity} {x : α} (h : r.tryPop = some (x, r')) :
    r.items = x :: r'.items := by
  obtain ⟨items, hb⟩ := r
  cases items with
  | nil => cases h
  | cons y ys =>
    cases h
    rfl

theorem tryPop_eq_none {r : Ring α capacity} (h : r.tryPop = none) : r.items = [] := by
  obtain ⟨items, hb⟩ := r
  cases items with
  | nil => rfl
  | cons y ys => cases h

end Ring

end BoundedRing

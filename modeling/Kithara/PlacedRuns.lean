import Mathlib.Data.List.Basic
import Mathlib.Data.Int.Notation
import Mathlib.Algebra.BigOperators.Group.List.Basic
import Mathlib.Algebra.GroupWithZero.Nat
import Mathlib.Algebra.Ring.Int.Defs

/-! Runs of consecutive pieces on a line. A run may say where it starts, as an offset from a base;
the first one starts at the base otherwise, a later one where the run before it stopped. -/
namespace PlacedRuns

structure Run where
  offset : Option ℤ
  sizes : List ℕ

def Run.total (run : Run) : ℤ := (run.sizes.sum : ℕ)

def placeRun (start : ℤ) : List ℕ → List (ℤ × ℤ)
  | [] => []
  | size :: sizes => (start, start + size) :: placeRun (start + size) sizes

def declaredStart (base : ℤ) (prev : Option ℤ) (run : Run) : ℤ :=
  match run.offset with
  | some offset => base + offset
  | none => prev.getD base

def placeRuns (base : ℤ) : Option ℤ → List Run → List (ℤ × ℤ)
  | _, [] => []
  | prev, run :: runs =>
    placeRun (declaredStart base prev run) run.sizes ++
      placeRuns base (some (declaredStart base prev run + run.total)) runs

/-- The pieces cover an interval in order, without gap or overlap. -/
def Tiles (start stop : ℤ) : List (ℤ × ℤ) → Prop
  | [] => start = stop
  | (lo, hi) :: pieces => lo = start ∧ lo ≤ hi ∧ Tiles hi stop pieces

/-- Every run starts where the one before it stops, the first at `cursor`. -/
def Contiguous (base : ℤ) : ℤ → Option ℤ → List Run → Prop
  | _, _, [] => True
  | cursor, prev, run :: runs =>
    declaredStart base prev run = cursor ∧
      Contiguous base (cursor + run.total) (some (cursor + run.total)) runs

variable {start stop base : ℤ} {prev : Option ℤ}

end PlacedRuns

import Kithara.Navigation
import Mathlib.Algebra.Group.Int.Defs
import Mathlib.Algebra.Group.Nat.Defs
import Mathlib.Data.Int.Notation
import Mathlib.Data.List.Basic

/-! The tracks a queue holds on its mixer, staged, and in the background. An entry is found by its
index: first come the entries seated on the mixer, then the staged replacements. -/
namespace QueueSlots

open Navigation (TrackId)

abbrev Seq := ℕ

abbrev Slot := UInt16

abbrev SessionFrame := ℤ

inductive Role where
  | current
  | incoming
  | preloaded
  | outgoing
  | leaving
  deriving DecidableEq, Repr

inductive LoadState where
  | opening (seq : Seq)
  | attaching (seq : Seq)
  deriving DecidableEq, Repr

def LoadState.seq : LoadState → Seq
  | .opening seq => seq
  | .attaching seq => seq

def LoadState.isOpening : LoadState → Bool
  | .opening _ => true
  | .attaching _ => false

/-- A track loaded in the background: it holds a decoder lane and no slot. -/
structure Parked (T : Type) where
  item : TrackId
  track : T
  load : Option LoadState

structure Active (T : Type) where
  item : TrackId
  slot : Slot
  track : T
  role : Role
  load : Option LoadState

structure Slots (T : Type) where
  capacity : ℕ
  parked : List (Parked T)
  active : List (Active T)
  staged : List (Active T)
  fades : List (Option SessionFrame)

variable {T : Type}

/-- The first of the least elements, as `Iterator::min_by` answers. -/
def minBy {α : Type} (cmp : α → α → Ordering) : List α → Option α
  | [] => none
  | a :: as => some (as.foldl (fun best x => if cmp best x = .gt then x else best) a)

namespace Slots

def new (capacity : ℕ) : Slots T := ⟨capacity, [], [], [], .replicate capacity none⟩

def entries (s : Slots T) : List (Active T) := s.active ++ s.staged

def len (s : Slots T) : ℕ := s.active.length + s.staged.length

def freeSlot (s : Slots T) : Option Slot :=
  ((List.range s.capacity).find? fun index =>
    s.entries.all fun active => active.slot.toNat != index).bind fun index =>
      if index < 2 ^ 16 then some (.ofNat index) else none

def fadeEnd (s : Slots T) (slot : Slot) : Option SessionFrame := s.fades[slot.toNat]?.join

/-- The track to evict for a new one: a fade nearer its end is quieter, any fade is quieter than a
slot without one, and the rest compare by the mixer's last gain. -/
def quietest (s : Slots T) (louder : Slot → Slot → Ordering) : Option ℕ :=
  (minBy (fun first second : Active T × ℕ =>
    match s.fadeEnd first.1.slot, s.fadeEnd second.1.slot with
    | some a, some b => compare a b
    | some _, none => .lt
    | none, some _ => .gt
    | none, none => louder first.1.slot second.1.slot) s.active.zipIdx).map (·.2)

def push (s : Slots T) (active : Active T) : Slots T := { s with active := s.active ++ [active] }

/-- The source asserts in debug builds that no other replacement waits. -/
def stage (s : Slots T) (replacement : Active T) : Slots T :=
  { s with staged := s.staged ++ [replacement] }

def isReplacement (s : Slots T) (index : ℕ) : Bool :=
  decide (s.active.length ≤ index) && decide (index < s.len)

def replacementIndex (s : Slots T) : Option ℕ :=
  (s.staged.findIdx? fun active => active.role != .leaving).map (s.active.length + ·)

def setFade (s : Slots T) (slot : Slot) (fade : Option SessionFrame) : Slots T :=
  { s with fades := s.fades.set slot.toNat fade }

def fadeOut (s : Slots T) (slot : Slot) (finish : SessionFrame) : Slots T :=
  s.setFade slot (some finish)

def clearFade (s : Slots T) (slot : Slot) : Slots T := s.setFade slot none

/-- A staged replacement takes the place of the entry in its slot, or goes behind the others. -/
def activateReplacement (s : Slots T) (index : ℕ) : Slots T :=
  if s.isReplacement index then
    match s.staged[index - s.active.length]? with
    | none => s
    | some replacement =>
      let s := { s with staged := s.staged.eraseIdx (index - s.active.length) }.clearFade
        replacement.slot
      match s.active.findIdx? fun active => active.slot == replacement.slot with
      | some victim => { s with active := s.active.set victim replacement }
      | none => s.push replacement
  else s

/-- The entry goes; a seated one takes the fade of its slot along. -/
def remove (s : Slots T) (index : ℕ) : Slots T :=
  if s.active.length ≤ index then
    { s with staged := s.staged.eraseIdx (index - s.active.length) }
  else match s.active[index]? with
    | none => s
    | some active => { s with active := s.active.eraseIdx index }.clearFade active.slot

def position (s : Slots T) (find : Active T → Bool) : Option ℕ := s.entries.findIdx? find

def get (s : Slots T) (index : ℕ) : Option (Active T) :=
  if s.active.length ≤ index then s.staged[index - s.active.length]? else s.active[index]?

def modify (s : Slots T) (index : ℕ) (change : Active T → Active T) : Slots T :=
  if s.active.length ≤ index then
    { s with staged := s.staged.modify (index - s.active.length) change }
  else { s with active := s.active.modify index change }

def mapEntries (s : Slots T) (change : Active T → Active T) : Slots T :=
  { s with active := s.active.map change, staged := s.staged.map change }

/-- Indices of the tracks `find` picks, in slot-assignment order. -/
def indices (s : Slots T) (find : Active T → Bool) : List ℕ :=
  (s.entries.zipIdx.filter fun entry => find entry.1).map (·.2)

def park (s : Slots T) (parked : Parked T) : Slots T := { s with parked := s.parked ++ [parked] }

def parkedPosition (s : Slots T) (find : Parked T → Bool) : Option ℕ := s.parked.findIdx? find

def modifyParked (s : Slots T) (index : ℕ) (change : Parked T → Parked T) : Slots T :=
  { s with parked := s.parked.modify index change }

def takeParked (s : Slots T) (index : ℕ) : Slots T :=
  { s with parked := s.parked.eraseIdx index }

def tracks (s : Slots T) : List T := s.entries.map (·.track) ++ s.parked.map (·.track)

end Slots

end QueueSlots

import Mathlib.Data.Nat.Notation
import Mathlib.Data.List.Basic
import Mathlib.Logic.Function.Basic
import Mathlib.Logic.Relation

/-! The cancel tree under any interleaving of its callers: a swap of a flag, a section under a
lock and a call of a waker are one step each. Registrations, the log of fired slots and the
nodes `cancel` was called on are kept beside the code's own state only to say what happened. -/
namespace CancelTree

inductive Slot (W F : Type) where
  | task (waker : W)
  | sync (call : F)
  deriving DecidableEq, Repr

/-- The registry knows a slot by `id`; `key` is the number of its registration. -/
structure Parked (W F : Type) where
  id : ℕ
  key : ℕ
  slot : Slot W F
  deriving DecidableEq, Repr

structure WakerSlots (W F : Type) where
  slots : List (Parked W F) := []
  fired : Bool := false
  nextId : ℕ := 0
  deriving DecidableEq, Repr

/-- A node lives while a handle, a child or a running call holds it. -/
structure Node (W F : Type) where
  flag : Bool := false
  children : List ℕ := []
  wakers : WakerSlots W F := {}
  parent : Option ℕ := none
  live : Bool := false
  deriving DecidableEq, Repr

/-- Where a running call stands: the calls of `cancel` before the swap, before the drain, while
the drained slots fire and while the children are walked; a registration that came after the
drain; a refresh whose slot was gone. -/
inductive Frame (W F : Type) where
  | swap (node : ℕ)
  | drain (node : ℕ)
  | fire (node : ℕ) (drained : List (ℕ × Slot W F))
  | walk (node : ℕ) (children : List ℕ)
  | fireAtOnce (node key : ℕ) (slot : Slot W F)
  | wake (node : ℕ) (waker : W)
  deriving DecidableEq, Repr

/-- What a caller of `register` knows: the id it was given, the latest waker, and whether the
slot was unregistered before the drain. -/
structure Registration (W F : Type) where
  node : ℕ
  id : Option ℕ
  slot : Slot W F
  withdrawn : Bool
  deriving DecidableEq, Repr

structure System (W F : Type) where
  workers : ℕ
  count : ℕ
  nodes : ℕ → Node W F
  threads : ℕ → List (Frame W F)
  registrations : List (Registration W F)
  log : List (ℕ × Slot W F)
  woken : List W
  requested : List ℕ

variable {W F : Type}

def initial (workers : ℕ) : System W F :=
  ⟨workers, 0, fun _ => {}, fun _ => [], [], [], [], []⟩

def WakerSlots.register (w : WakerSlots W F) (key : ℕ) (slot : Slot W F) :
    WakerSlots W F × Option ℕ :=
  if w.fired then (w, none)
  else
    ({ w with slots := w.slots ++ [⟨w.nextId, key, slot⟩], nextId := w.nextId + 1 },
      some w.nextId)

def refreshFirst (id : ℕ) (slot : Slot W F) : List (Parked W F) → Option (List (Parked W F))
  | [] => none
  | p :: rest =>
    if p.id = id then some ({ p with slot := slot } :: rest)
    else (refreshFirst id slot rest).map (p :: ·)

def WakerSlots.refreshTask (w : WakerSlots W F) (id : ℕ) (waker : W) : Option (WakerSlots W F) :=
  (refreshFirst id (.task waker) w.slots).map fun slots => { w with slots := slots }

def WakerSlots.unregister (w : WakerSlots W F) (id : ℕ) : WakerSlots W F :=
  { w with slots := w.slots.filter fun p => p.id != id }

def WakerSlots.drain (w : WakerSlots W F) : WakerSlots W F × List (ℕ × Slot W F) :=
  ({ w with fired := true, slots := [] }, w.slots.map fun p => (p.key, p.slot))

def System.edit (s : System W F) (n : ℕ) (f : Node W F → Node W F) : System W F :=
  { s with nodes := Function.update s.nodes n (f (s.nodes n)) }

def System.setWakers (s : System W F) (n : ℕ) (wakers : WakerSlots W F) : System W F :=
  s.edit n fun node => { node with wakers := wakers }

def System.liveChildren (s : System W F) (n : ℕ) : List ℕ :=
  (s.nodes n).children.filter fun c => (s.nodes c).live

def System.add (s : System W F) (node : Node W F) : System W F :=
  { s with nodes := Function.update s.nodes s.count node, count := s.count + 1 }

def System.bornUnder (s : System W F) (p : ℕ) : Node W F :=
  let bornCancelled := (s.nodes p).flag
  { flag := bornCancelled
    children := []
    wakers := { fired := bornCancelled }
    parent := some p
    live := true }

def System.child (s : System W F) (p : ℕ) : System W F :=
  (s.edit p fun node => { node with children := s.liveChildren p ++ [s.count] }).add
    (s.bornUnder p)

/-- Before the drain, the callers that hold `id` of the node `n` see `f` happen to their
registration. -/
def System.amend (s : System W F) (n id : ℕ) (f : Registration W F → Registration W F) :
    List (Registration W F) :=
  if (s.nodes n).wakers.fired then s.registrations
  else s.registrations.map fun r => if r.node = n ∧ r.id = some id then f r else r

/-- The next atomic step of a call, and the frames that stand for the rest of it. -/
def System.runFrame (s : System W F) : Frame W F → System W F × List (Frame W F)
  | .swap n =>
    if (s.nodes n).flag then (s, [])
    else (s.edit n fun node => { node with flag := true }, [.drain n])
  | .drain n =>
    (s.setWakers n (s.nodes n).wakers.drain.1, [.fire n (s.nodes n).wakers.drain.2])
  | .fire n ((key, slot) :: drained) =>
    ({ s with log := s.log ++ [(key, slot)] }, [.fire n drained])
  | .fire n [] => (s.edit n fun node => { node with children := [] }, [.walk n (s.liveChildren n)])
  | .walk n (c :: children) => (s, [.swap c, .walk n children])
  | .walk _ [] => (s, [])
  | .fireAtOnce _ key slot => ({ s with log := s.log ++ [(key, slot)] }, [])
  | .wake _ waker => ({ s with woken := s.woken ++ [waker] }, [])

def System.setThread (s : System W F) (th : ℕ) (stack : List (Frame W F)) : System W F :=
  { s with threads := Function.update s.threads th stack }

def System.begin (s : System W F) (th : ℕ) (frame : Frame W F) : System W F :=
  s.setThread th (frame :: s.threads th)

def System.register (s : System W F) (th n : ℕ) (slot : Slot W F) : System W F :=
  let key := s.registrations.length
  let answer := (s.nodes n).wakers.register key slot
  let t := { s.setWakers n answer.1 with
    registrations := s.registrations ++ [⟨n, answer.2, slot, false⟩] }
  if answer.2.isSome then t else t.begin th (.fireAtOnce n key slot)

def System.refreshTask (s : System W F) (th n id : ℕ) (waker : W) : System W F :=
  let t := { s with registrations := s.amend n id fun r => { r with slot := .task waker } }
  match (s.nodes n).wakers.refreshTask id waker with
  | some wakers => t.setWakers n wakers
  | none => t.begin th (.wake n waker)

def System.unregister (s : System W F) (n id : ℕ) : System W F :=
  { s.setWakers n ((s.nodes n).wakers.unregister id) with
    registrations := s.amend n id fun r => { r with withdrawn := true } }

/-- `root`, `child` and `unregister` are one step of whichever thread calls them. -/
inductive Event (W F : Type) where
  | root
  | child (parent : ℕ)
  | cancel (thread node : ℕ)
  | register (thread node : ℕ) (slot : Slot W F)
  | refreshTask (thread node id : ℕ) (waker : W)
  | unregister (node id : ℕ)
  | drop (node : ℕ)
  | step (thread : ℕ)
  deriving DecidableEq, Repr

/-- A thread makes a call when it runs none, or from inside a waker it fires. -/
def mayCall : List (Frame W F) → Bool
  | [] => true
  | .fire _ _ :: _ => true
  | _ :: _ => false

def Frame.holds : Frame W F → List ℕ
  | .swap n => [n]
  | .drain n => [n]
  | .fire n _ => [n]
  | .walk n children => n :: children
  | .fireAtOnce n _ _ => [n]
  | .wake n _ => [n]

def System.Calls (s : System W F) (th n : ℕ) : Prop :=
  th < s.workers ∧ mayCall (s.threads th) = true ∧ (s.nodes n).live = true

def Enabled (s : System W F) : Event W F → Prop
  | .root => True
  | .child p => (s.nodes p).live = true
  | .cancel th n => s.Calls th n
  | .register th n _ => s.Calls th n
  | .refreshTask th n _ _ => s.Calls th n
  | .unregister n _ => (s.nodes n).live = true
  | .drop n => (s.nodes n).live = true ∧
      (∀ c < s.count, (s.nodes c).parent = some n → (s.nodes c).live = false) ∧
      ∀ th < s.workers, ∀ frame ∈ s.threads th, n ∉ frame.holds
  | .step th => th < s.workers ∧ s.threads th ≠ []

instance (s : System W F) (th n : ℕ) : Decidable (s.Calls th n) :=
  inferInstanceAs (Decidable (_ ∧ _ ∧ _))

instance [DecidableEq W] [DecidableEq F] (s : System W F) :
    (e : Event W F) → Decidable (Enabled s e)
  | .root => inferInstanceAs (Decidable True)
  | .child p => inferInstanceAs (Decidable ((s.nodes p).live = true))
  | .cancel th n => inferInstanceAs (Decidable (s.Calls th n))
  | .register th n _ => inferInstanceAs (Decidable (s.Calls th n))
  | .refreshTask th n _ _ => inferInstanceAs (Decidable (s.Calls th n))
  | .unregister n _ => inferInstanceAs (Decidable ((s.nodes n).live = true))
  | .drop _ => inferInstanceAs (Decidable (_ ∧ _ ∧ _))
  | .step th => inferInstanceAs (Decidable (th < s.workers ∧ s.threads th ≠ []))

def System.step (s : System W F) (th : ℕ) : System W F :=
  match s.threads th with
  | [] => s
  | frame :: rest => (s.runFrame frame).1.setThread th ((s.runFrame frame).2 ++ rest)

def next (s : System W F) : Event W F → System W F
  | .root => s.add { live := true }
  | .child p => s.child p
  | .cancel th n => { s.begin th (.swap n) with requested := n :: s.requested }
  | .register th n slot => s.register th n slot
  | .refreshTask th n id waker => s.refreshTask th n id waker
  | .unregister n id => s.unregister n id
  | .drop n => s.edit n fun node => { node with live := false }
  | .step th => s.step th

def Step (s : System W F) (e : Event W F) (t : System W F) : Prop :=
  Enabled s e ∧ t = next s e

inductive Reachable : System W F → Prop where
  | initial (workers : ℕ) : Reachable (initial workers)
  | step {s e t} (hs : Reachable s) (h : Step s e t) : Reachable t

def run (s : System W F) : List (Event W F) → System W F
  | [] => s
  | e :: events => run (next s e) events

def Allowed (s : System W F) : List (Event W F) → Prop
  | [] => True
  | e :: events => Enabled s e ∧ Allowed (next s e) events

theorem reachable_run {s : System W F} (hs : Reachable s) {events : List (Event W F)}
    (h : Allowed s events) : Reachable (run s events) := by
  induction events generalizing s with
  | nil => exact hs
  | cons e events ih => exact ih (hs.step ⟨h.1, rfl⟩) h.2

def System.ParentOf (s : System W F) (p c : ℕ) : Prop := (s.nodes c).parent = some p

/-- The node `d` is `a` or was derived from it. -/
def System.Descends (s : System W F) (a d : ℕ) : Prop := Relation.ReflTransGen s.ParentOf a d

def System.Runs (s : System W F) (frame : Frame W F) : Prop :=
  ∃ th, frame ∈ s.threads th

def Frame.ofCancel : Frame W F → Bool
  | .swap _ => true
  | .drain _ => true
  | .fire _ _ => true
  | .walk _ _ => true
  | .fireAtOnce _ _ _ => false
  | .wake _ _ => false

def System.Quiet (s : System W F) : Prop :=
  ∀ frame, s.Runs frame → frame.ofCancel = false

end CancelTree

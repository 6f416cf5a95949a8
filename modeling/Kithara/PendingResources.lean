import Kithara.TransitionSystem
import Mathlib.Logic.Function.Basic
import Mathlib.Data.List.Basic

/-! Sessions that acquire one resource of a store: consumers attach to the session its index lists,
one of them at a time writes, and the session ends in a commit or in a removal. An operation that
ends a session works under the lock of the index entry, and lets go of the session's own lock
meanwhile; a write looks at the entry first and takes the session's lock after. -/
namespace PendingResources

open TransitionSystem

variable (W : Type*)

inductive SessionPhase where
  | active
  | finishing
  | committed
  | cleanupFailed
  deriving DecidableEq

structure WriterClaim where
  id : ℕ
  consumer : ℕ
  deriving DecidableEq

structure PendingResource where
  phase : SessionPhase
  /-- The consumers attached. -/
  entries : List ℕ
  /-- The canonical reader is there. -/
  reader : Bool
  /-- What was written through the canonical writer, while it is there. -/
  writer : Option (List W)
  writerClaim : Option WriterClaim
  writerCancel : Bool
  /-- Calls of the remove callback. -/
  removes : ℕ

/-- What is left to do under the lock of the entry. -/
inductive Stage where
  | storing
  | unlisting
  | removing
  deriving DecidableEq

structure State where
  /-- The session that the index lists. -/
  slot : Option ℕ
  session : ℕ → PendingResource W
  opened : ℕ
  /-- The token of the store, above that of each session. -/
  cancelled : Bool
  /-- An operation midway, with the lock of the entry. -/
  stage : Option (ℕ × Stage)
  leases : List (ℕ × ℕ)
  /-- Claims given out, each with its session. -/
  issued : List (ℕ × WriterClaim)
  /-- Writes that found their session listed. -/
  writing : List (ℕ × WriterClaim)
  /-- Ended sessions whose token is to be cancelled yet. -/
  retired : List ℕ
  consumers : ℕ
  claims : ℕ

inductive Acquired where
  | pending
  | ready
  | joined
  | failed

inductive Action where
  | attach (acquired : Acquired)
  | tryTakeWriter (session consumer : ℕ)
  | dropLease (session consumer : ℕ)
  | dropWriter (session : ℕ) (claim : WriterClaim)
  | relinquish (session : ℕ) (claim : WriterClaim)
  | commit (session : ℕ) (claim : WriterClaim)
  | fail (session : ℕ) (claim : WriterClaim)
  | enterWrite (session : ℕ) (claim : WriterClaim)
  | writeAt (session : ℕ) (claim : WriterClaim) (data : W) (ok : Bool)
  /-- The storage commits, or does not. -/
  | stored (ok : Bool)
  | unlist
  /-- The remove callback returns. -/
  | removed (ok : Bool)
  | cancelRetired (session : ℕ)
  | cancelSession (session : ℕ)
  | cancelStore

inductive Answer where
  | attached (session : ℕ) (writer : Option WriterClaim)
  | ready
  | joined
  | failed
  | cleanupFailed
  | writer (claim : Option WriterClaim)
  | current
  | stale
  /-- The operation is not over. -/
  | running
  | done
  | bug
  deriving DecidableEq

variable {W}

namespace PendingResource

def blank : PendingResource W :=
  ⟨.finishing, [], false, none, none, true, 0⟩

def new (consumer : ℕ) : PendingResource W :=
  ⟨.active, [consumer], true, some [], none, false, 0⟩

def electWriter (r : PendingResource W) (cancelled : Bool) (consumer id : ℕ) :
    Option WriterClaim :=
  if r.writerCancel || cancelled then none
  else if r.phase ≠ .active ∨ r.writerClaim.isSome then none
  else some ⟨id, consumer⟩

def isCurrentWriter (r : PendingResource W) (claim : WriterClaim) : Bool :=
  r.phase = .active && r.writerClaim = some claim

end PendingResource

def start : State W where
  slot := none
  session _ := .blank
  opened := 0
  cancelled := false
  stage := none
  leases := []
  issued := []
  writing := []
  retired := []
  consumers := 0
  claims := 0

namespace State

variable (s : State W)

def put (i : ℕ) (r : PendingResource W) : State W :=
  { s with session := Function.update s.session i r }

/-- The session elects a writer, when it has none. -/
def elect (i consumer : ℕ) : State W × Option WriterClaim :=
  match (s.session i).electWriter s.cancelled consumer s.claims with
  | none => (s, none)
  | some claim =>
    ({ s.put i { s.session i with writerClaim := some claim } with
        issued := (i, claim) :: s.issued
        claims := s.claims + 1 }, some claim)

def join (i : ℕ) : State W :=
  { s.put i { s.session i with entries := (s.session i).entries ++ [s.consumers] } with
    leases := (i, s.consumers) :: s.leases
    consumers := s.consumers + 1 }

def openSession : State W :=
  { s.put s.opened (.new s.consumers) with
    slot := some s.opened
    opened := s.opened + 1
    leases := (s.opened, s.consumers) :: s.leases
    consumers := s.consumers + 1 }

/-- An operation that ends the session is over. -/
def retire (i : ℕ) : State W := { s with stage := none, retired := i :: s.retired }

def Current (i : ℕ) (claim : WriterClaim) : Prop := (s.session i).isCurrentWriter claim = true

end State

def attach (s : State W) (acquired : Acquired) : State W × Answer :=
  match s.slot with
  | some i => match (s.session i).phase with
    | .cleanupFailed => (s, .cleanupFailed)
    | .committed | .finishing => (s, .bug)
    | .active =>
      let (s', claim) := (s.join i).elect i s.consumers
      if (s.session i).reader then (s', .attached i claim) else (s', .bug)
  | none => match acquired with
    | .pending =>
      let (s', claim) := s.openSession.elect s.opened s.consumers
      (s', .attached s.opened claim)
    | .ready => (s, .ready)
    | .joined => (s, .joined)
    | .failed => (s, .failed)

def tryTakeWriter (s : State W) (i consumer : ℕ) : State W × Answer :=
  if s.slot ≠ some i ∨ consumer ∉ (s.session i).entries then (s, .writer none)
  else
    let (s', claim) := s.elect i consumer
    (s', .writer claim)

def dropLease (s : State W) (i consumer : ℕ) : State W × Answer :=
  let r := s.session i
  let r := { r with
    entries := r.entries.filter (· ≠ consumer)
    writerClaim := r.writerClaim.filter (·.consumer ≠ consumer) }
  let s' := { s.put i r with leases := s.leases.filter (· ≠ (i, consumer)) }
  if r.phase = .cleanupFailed ∨ s.slot ≠ some i ∨ r.entries ≠ [] then (s', .done)
  else
    ({ s'.put i { r with phase := .finishing, writer := none, reader := false } with
        stage := some (i, .removing) }, .running)

/-- What only the current writer does. -/
def asWriter (s : State W) (i : ℕ) (claim : WriterClaim) (act : State W × Answer) :
    State W × Answer :=
  if s.slot = some i ∧ (s.session i).isCurrentWriter claim = true then act else (s, .stale)

/-- A writer of the session leaves, and the canonical writer stays. -/
def relinquish (s : State W) (i : ℕ) (claim : WriterClaim) : State W × Answer :=
  asWriter s i claim (s.put i { s.session i with writerClaim := none }, .current)

def commit (s : State W) (i : ℕ) (claim : WriterClaim) : State W × Answer :=
  let r := s.session i
  asWriter s i claim <| match r.writer with
    | none => (s, .bug)
    | some _ =>
      ({ s.put i { r with phase := .finishing, writerClaim := none, writer := none } with
          stage := some (i, .storing) }, .running)

def fail (s : State W) (i : ℕ) (claim : WriterClaim) : State W × Answer :=
  let r := s.session i
  asWriter s i claim <| match r.writer with
    | none => (s, .bug)
    | some _ =>
      ({ s.put i { r with
          phase := .finishing, writerClaim := none, writer := none, reader := false } with
          stage := some (i, .removing) }, .running)

def writeAt (s : State W) (i : ℕ) (claim : WriterClaim) (data : W) (ok : Bool) :
    State W × Answer :=
  let s := { s with writing := s.writing.erase (i, claim) }
  let r := s.session i
  if r.isCurrentWriter claim then
    match r.writer with
    | none => (s, .stale)
    | some written =>
      if ok then (s.put i { r with writer := some (written ++ [data]) }, .current)
      else (s, .current)
  else (s, .stale)

/-- The rest of an operation that ended the session. -/
def finish (s : State W) (i : ℕ) : Stage → Bool → State W × Answer
  | .storing, true =>
    ({ s.put i { s.session i with reader := true, phase := .committed } with
        stage := some (i, .unlisting) }, .running)
  | .storing, false =>
    ({ s.put i { s.session i with reader := false } with stage := some (i, .removing) }, .running)
  | .unlisting, _ => ({ s with slot := none }.retire i, .current)
  | .removing, true =>
    ({ s.put i { s.session i with removes := (s.session i).removes + 1 } with
        slot := none }.retire i, .current)
  | .removing, false =>
    ((s.put i { s.session i with
        removes := (s.session i).removes + 1, phase := .cleanupFailed }).retire i, .current)

def cancelWriter (s : State W) (i : ℕ) : State W :=
  s.put i { s.session i with writerCancel := true }

def step (s : State W) : Action W → State W × Answer
  | .attach acquired => attach s acquired
  | .tryTakeWriter i consumer => tryTakeWriter s i consumer
  | .dropLease i consumer => dropLease s i consumer
  | .dropWriter i claim | .relinquish i claim => relinquish s i claim
  | .commit i claim => commit s i claim
  | .fail i claim => fail s i claim
  | .enterWrite i claim =>
    if s.slot = some i then ({ s with writing := (i, claim) :: s.writing }, .running)
    else (s, .stale)
  | .writeAt i claim data ok => writeAt s i claim data ok
  | .stored ok | .removed ok => s.stage.elim (s, .bug) fun p => finish s p.1 p.2 ok
  | .unlist => s.stage.elim (s, .bug) fun p => finish s p.1 p.2 true
  | .cancelRetired i => ({ cancelWriter s i with retired := s.retired.erase i }, .done)
  | .cancelSession i => (cancelWriter s i, .done)
  | .cancelStore => ({ s with cancelled := true }, .done)

/-- An operation on the entry waits for its lock; leases and claims were given out. -/
def Enabled (s : State W) : Action W → Prop
  | .attach _ => s.stage = none
  | .tryTakeWriter i consumer | .dropLease i consumer =>
    s.stage = none ∧ (i, consumer) ∈ s.leases
  | .dropWriter i claim | .relinquish i claim | .commit i claim | .fail i claim
  | .enterWrite i claim => s.stage = none ∧ (i, claim) ∈ s.issued
  | .writeAt i claim _ _ => (i, claim) ∈ s.writing
  | .stored _ => s.stage.map Prod.snd = some .storing
  | .unlist => s.stage.map Prod.snd = some .unlisting
  | .removed _ => s.stage.map Prod.snd = some .removing
  | .cancelRetired i => i ∈ s.retired
  | .cancelSession i => i < s.opened
  | .cancelStore => True

instance (s : State W) : (a : Action W) → Decidable (Enabled s a)
  | .attach _ => inferInstanceAs (Decidable (s.stage = none))
  | .tryTakeWriter i consumer | .dropLease i consumer =>
    inferInstanceAs (Decidable (s.stage = none ∧ (i, consumer) ∈ s.leases))
  | .dropWriter i claim | .relinquish i claim | .commit i claim | .fail i claim
  | .enterWrite i claim => inferInstanceAs (Decidable (s.stage = none ∧ (i, claim) ∈ s.issued))
  | .writeAt i claim _ _ => inferInstanceAs (Decidable ((i, claim) ∈ s.writing))
  | .stored _ => inferInstanceAs (Decidable (s.stage.map Prod.snd = some .storing))
  | .unlist => inferInstanceAs (Decidable (s.stage.map Prod.snd = some .unlisting))
  | .removed _ => inferInstanceAs (Decidable (s.stage.map Prod.snd = some .removing))
  | .cancelRetired i => inferInstanceAs (Decidable (i ∈ s.retired))
  | .cancelSession i => inferInstanceAs (Decidable (i < s.opened))
  | .cancelStore => isTrue trivial

def machine : Machine (State W) (Action W) where
  Enabled := Enabled
  next s a := (step s a).1

instance (s : State W) (a : Action W) : Decidable (machine.Enabled s a) :=
  inferInstanceAs (Decidable (Enabled s a))

end PendingResources

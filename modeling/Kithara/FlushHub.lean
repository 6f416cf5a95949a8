import Kithara.TransitionSystem

/-! The hub that flushes the indexes of an asset store, and the mutators beside it. Pins and the
LRU index are eager: a mutator marks the index and flushes it itself. Availability is debounced:
a mutator marks it and signals the hub. The worker flushes what is marked without forcing it to
the medium; a checkpoint forces it. Each load, store, swap and write is a step of its own. -/
namespace FlushHub

open TransitionSystem

/-- The lock under which an index file is written, and how far its holder has come. The hub and
the mutators take it alike. -/
inductive Writing (σ : Type*) where
  | free
  | taken (hub : Bool) (snapshot : σ)
  | written (hub : Bool)

def Writing.holder {σ : Type*} : Writing σ → Option Bool
  | .free => none
  | .taken hub _ | .written hub => some hub

def Writing.isTaken {σ : Type*} (hub : Bool) : Writing σ → Bool
  | .taken hub' _ => hub' = hub
  | _ => false

def Writing.isWritten {σ : Type*} (hub : Bool) : Writing σ → Bool
  | .written hub' => hub' = hub
  | _ => false

structure Source (σ : Type*) where
  /-- What it was hydrated with. -/
  loaded : σ
  current : σ
  /-- The last file written, and whether by the durable variant. -/
  file : Option (σ × Bool)
  dirty : Bool
  /-- The hub lists it among the sources whose last flush was non-durable. -/
  nonDurable : Bool
  /-- Mutators that changed it and are still to mark it. -/
  unmarked : ℕ
  /-- Mutators that marked it and are still to take its lock. -/
  waiting : ℕ
  /-- Mutators that marked it and are still to signal the hub. -/
  unsignalled : ℕ
  writing : Writing σ
  /-- Its last flush failed. -/
  owes : Bool
  /-- No mutation of it was under way since the checkpoint began. -/
  calm : Bool

inductive Stage where
  | flushing
  | recording (ok : Bool)
deriving DecidableEq

structure Pass (ι : Type*) where
  durable : Bool
  alive : List ι
  todo : List ι
  stage : Option (ι × Stage)
  done : List ι
  failed : Bool

inductive Worker where
  | parked
  | due (last : Bool)
  | exited
deriving DecidableEq

structure State (ι σ : Type*) where
  source : ι → Source σ
  /-- In the order they registered. -/
  sources : List ι
  pass : Option (Pass ι)
  pending : Bool
  worker : Worker
  cancelled : Bool

inductive Action (ι σ : Type*) where
  | register (i : ι)
  | mutate (i : ι) (value : σ)
  | mark (i : ι)
  | signal (i : ι)
  | take (i : ι)
  | write (i : ι) (ok : Bool)
  | clear (i : ι)
  | cancel
  /-- The worker leaves its wait: for a flush, or for the last one after a cancel. -/
  | wake (last : Bool)
  | begin (durable : Bool)
  | visit
  | hubTake
  | hubWrite (ok : Bool)
  | hubClear
  | record
  | finish

variable {ι σ : Type*} [DecidableEq ι]

namespace Source

variable (src : Source σ)

def hydrate (value : σ) : Source σ :=
  { loaded := value, current := value, file := none, dirty := false, nonDurable := false,
    unmarked := 0, waiting := 0, unsignalled := 0, writing := .free, owes := false,
    calm := false }

def idle : Bool :=
  src.unmarked = 0 && src.waiting = 0 && src.unsignalled = 0 && src.writing.holder ≠ some false

def mutate (value : σ) : Source σ :=
  { src with current := value, unmarked := src.unmarked + 1, calm := false }

def mark (eager : Bool) : Source σ :=
  { src with
    dirty := true
    unmarked := src.unmarked - 1
    waiting := if eager then src.waiting + 1 else src.waiting
    unsignalled := if eager then src.unsignalled else src.unsignalled + 1 }

def signal : Source σ := { src with unsignalled := src.unsignalled - 1 }

def take (hub : Bool) : Source σ :=
  { src with
    writing := .taken hub src.current
    waiting := if hub then src.waiting else src.waiting - 1 }

def write (durable ok : Bool) : Source σ := match src.writing with
  | .taken hub snapshot =>
    if ok then
      { src with file := some (snapshot, durable), writing := .written hub, owes := false }
    else { src with writing := .free, owes := true }
  | _ => src

/-- A flush that wrote ends. Those of pins and the LRU index clear the mark. -/
def clear (eager : Bool) : Source σ :=
  { src with dirty := if eager then false else src.dirty, writing := .free }

def swap : Source σ := { src with dirty := false }

def record (durable ok : Bool) : Source σ :=
  if ok then { src with nonDurable := !durable } else { src with dirty := true }

def retain (alive : Bool) : Source σ := { src with nonDurable := src.nonDurable && alive }

def needsFlush (durable : Bool) : Bool := src.dirty || durable && src.nonDurable

/-- The file holds the current snapshot and is durable, or there was nothing to write. -/
def Checkpointed : Prop :=
  src.file = some (src.current, true) ∨ src.file = none ∧ src.current = src.loaded

end Source

def start (loaded : ι → σ) : State ι σ :=
  { source := fun i => .hydrate (loaded i), sources := [], pass := none, pending := false,
    worker := .parked, cancelled := false }

namespace State

variable (s : State ι σ)

/-- Where the hub's pass is with a source, and whether it is a checkpoint's. -/
def stageAt (i : ι) : Option (Bool × Stage) := s.pass.bind fun pass =>
  pass.stage.bind fun at_ => if at_.1 = i then some (pass.durable, at_.2) else none

def edit (i : ι) (f : Source σ → Source σ) : State ι σ :=
  { s with source := Function.update s.source i (f (s.source i)) }

def onStage (f : Pass ι → ι → Stage → State ι σ) : State ι σ := match s.pass with
  | some pass => pass.stage.elim s fun at_ => f pass at_.1 at_.2
  | none => s

end State

def flushDirty (s : State ι σ) (durable : Bool) : State ι σ :=
  { s with
    source := fun i => { (s.source i).retain (i ∈ s.sources) with calm := durable && (s.source i).idle }
    pass := some
      { durable := durable, alive := s.sources, todo := s.sources, stage := none, done := [],
        failed := false } }

variable (eager : ι → Bool)

def Enabled (s : State ι σ) : Action ι σ → Prop
  | .register i => i ∉ s.sources
  | .mutate _ _ | .cancel => True
  | .mark i => 0 < (s.source i).unmarked
  | .signal i => 0 < (s.source i).unsignalled
  | .take i => (s.source i).writing.holder = none ∧ 0 < (s.source i).waiting
  | .write i _ => ∃ v, (s.source i).writing = .taken false v
  | .clear i => (s.source i).writing.isWritten false = true
  | .wake last => s.worker = .parked ∧ if last then s.cancelled = true else s.pending = true
  | .begin durable => s.pass = none ∧ (durable = false → ∃ last, s.worker = .due last)
  | .visit => ∃ pass ∈ s.pass, pass.stage = none ∧ pass.todo ≠ []
  | .hubTake => ∃ pass ∈ s.pass, ∃ at_ ∈ pass.stage, at_.2 = .flushing ∧
    (s.source at_.1).writing.holder = none
  | .hubWrite _ => ∃ pass ∈ s.pass, ∃ at_ ∈ pass.stage, at_.2 = .flushing ∧
    ∃ v, (s.source at_.1).writing = .taken true v
  | .hubClear => ∃ pass ∈ s.pass, ∃ at_ ∈ pass.stage, at_.2 = .flushing ∧
    (s.source at_.1).writing.isWritten true = true
  | .record => ∃ pass ∈ s.pass, ∃ at_ ∈ pass.stage, ∃ ok, at_.2 = .recording ok
  | .finish => ∃ pass ∈ s.pass, pass.stage = none ∧ pass.todo = []

instance (w : Writing σ) (hub : Bool) : Decidable (∃ v, w = .taken hub v) :=
  decidable_of_iff (w.isTaken hub = true) (by cases w <;> simp [Writing.isTaken, eq_comm])

instance (s : State ι σ) : (a : Action ι σ) → Decidable (Enabled s a)
  | .register i => inferInstanceAs (Decidable (i ∉ s.sources))
  | .mutate _ _ | .cancel => isTrue trivial
  | .mark i => inferInstanceAs (Decidable (0 < (s.source i).unmarked))
  | .signal i => inferInstanceAs (Decidable (0 < (s.source i).unsignalled))
  | .take i => inferInstanceAs
      (Decidable ((s.source i).writing.holder = none ∧ 0 < (s.source i).waiting))
  | .write i _ => inferInstanceAs (Decidable (∃ v, (s.source i).writing = .taken false v))
  | .clear i => inferInstanceAs (Decidable ((s.source i).writing.isWritten false = true))
  | .wake last => inferInstanceAs (Decidable
      (s.worker = .parked ∧ if last then s.cancelled = true else s.pending = true))
  | .begin durable => inferInstanceAs (Decidable
      (s.pass = none ∧ (durable = false → ∃ last, s.worker = .due last)))
  | .visit => inferInstanceAs (Decidable (∃ pass ∈ s.pass, pass.stage = none ∧ pass.todo ≠ []))
  | .hubTake => inferInstanceAs (Decidable (∃ pass ∈ s.pass, ∃ at_ ∈ pass.stage,
      at_.2 = .flushing ∧ (s.source at_.1).writing.holder = none))
  | .hubWrite _ => inferInstanceAs (Decidable (∃ pass ∈ s.pass, ∃ at_ ∈ pass.stage,
      at_.2 = .flushing ∧ ∃ v, (s.source at_.1).writing = .taken true v))
  | .hubClear => inferInstanceAs (Decidable (∃ pass ∈ s.pass, ∃ at_ ∈ pass.stage,
      at_.2 = .flushing ∧ (s.source at_.1).writing.isWritten true = true))
  | .record => inferInstanceAs (Decidable (∃ pass ∈ s.pass, ∃ at_ ∈ pass.stage,
      ∃ ok, at_.2 = .recording ok))
  | .finish => inferInstanceAs (Decidable (∃ pass ∈ s.pass, pass.stage = none ∧ pass.todo = []))

def next (s : State ι σ) : Action ι σ → State ι σ
  | .register i => { s with sources := s.sources ++ [i] }
  | .mutate i value => s.edit i (·.mutate value)
  | .mark i => s.edit i (·.mark (eager i))
  | .signal i => { s.edit i (·.signal) with pending := s.pending || i ∈ s.sources }
  | .take i => s.edit i (·.take false)
  | .write i ok => s.edit i (·.write false ok)
  | .clear i => s.edit i (·.clear (eager i))
  | .cancel => { s with cancelled := true }
  | .wake last => { s with worker := .due last, pending := s.pending && last }
  | .begin durable =>
    -- `flush_now` takes what is pending on itself; the worker did when it woke
    flushDirty { s with pending := s.pending && !durable } durable
  | .visit => match s.pass with
    | some pass => match pass.todo with
      | i :: rest =>
        let visited := s.edit i (·.swap)
        if (s.source i).needsFlush pass.durable then
          { visited with pass := some { pass with todo := rest, stage := some (i, .flushing) } }
        else { visited with pass := some { pass with todo := rest, done := i :: pass.done } }
      | [] => s
    | none => s
  | .hubTake => s.onStage fun _ i _ => s.edit i (·.take true)
  | .hubWrite ok => s.onStage fun pass i _ =>
    { s.edit i (·.write pass.durable ok) with
      pass := some { pass with stage := some (i, if ok then .flushing else .recording false) } }
  | .hubClear => s.onStage fun pass i _ =>
    { s.edit i (·.clear (eager i)) with
      pass := some { pass with stage := some (i, .recording true) } }
  | .record => s.onStage fun pass i stage =>
    let ok := stage = .recording true
    { s.edit i (·.record pass.durable ok) with
      pass := some { pass with
        stage := none, done := i :: pass.done, failed := pass.failed || !ok } }
  | .finish =>
    let worker := match s.worker with
      | .due last => if last then .exited else .parked
      | worker => worker
    { s with
      worker := if s.pass.all fun pass => pass.durable then s.worker else worker
      pass := none }

def machine : Machine (State ι σ) (Action ι σ) where
  Enabled := Enabled
  next := next eager

instance (s : State ι σ) (a : Action ι σ) : Decidable ((machine eager).Enabled s a) :=
  inferInstanceAs (Decidable (Enabled s a))

/-- A failed flush leaves the source marked, or the hub has still to flush it or to mark it. -/
def Marked (s : State ι σ) (i : ι) : Prop :=
  (s.source i).dirty = true ∨ ∃ durable,
    s.stageAt i = some (durable, .flushing) ∨ s.stageAt i = some (durable, .recording false)

/-- What a checkpoint promises: when it is about to return without an error, every source it
found registered and undisturbed has its current snapshot in a durable file, and what failed to
flush is marked, so that a pass that comes to it flushes it again. -/
structure Promise (s : State ι σ) : Prop where
  checkpointed : ∀ pass ∈ s.pass, pass.durable = true → pass.todo = [] → pass.stage = none →
    pass.failed = false → ∀ i ∈ pass.alive, (s.source i).calm = true → (s.source i).Checkpointed
  marked : ∀ i, (s.source i).owes = true → Marked s i
  retried : ∀ pass ∈ s.pass, pass.stage = none → ∀ i rest, pass.todo = i :: rest →
    (s.source i).owes = true →
      (next eager s .visit).stageAt i = some (pass.durable, .flushing)

/-- The hub lists the source, is still to list it, or is still to flush it. -/
def Tracked (s : State ι σ) (i : ι) : Prop := match s.stageAt i with
  | none => (s.source i).nonDurable = true
  | some (durable, stage) => ¬ (durable = true ∧ stage = .recording true)

/-- The steps that keep the promise: a mutator's own flush clears the mark only of a source the
hub tracks, and fails only while the mark its mutator set stands. -/
def Careful (s : State ι σ) : Action ι σ → Prop
  | .clear i => Tracked s i
  | .write i false => Marked s i
  | _ => True

instance (s : State ι σ) (i : ι) : Decidable (Marked s i) :=
  inferInstanceAs (Decidable ((s.source i).dirty = true ∨ ∃ durable,
    s.stageAt i = some (durable, .flushing) ∨ s.stageAt i = some (durable, .recording false)))

instance (s : State ι σ) (i : ι) : Decidable (Tracked s i) := match h : s.stageAt i with
  | none => decidable_of_iff ((s.source i).nonDurable = true) (by rw [Tracked, h])
  | some (durable, stage) => decidable_of_iff (¬ (durable = true ∧ stage = .recording true))
      (by rw [Tracked, h])

instance (s : State ι σ) : (a : Action ι σ) → Decidable (Careful s a)
  | .clear i => inferInstanceAs (Decidable (Tracked s i))
  | .write i false => inferInstanceAs (Decidable (Marked s i))
  | .write _ true | .register _ | .mutate _ _ | .mark _ | .signal _ | .take _ | .cancel | .wake _
  | .begin _ | .visit | .hubTake | .hubWrite _ | .hubClear | .record | .finish => isTrue trivial

end FlushHub

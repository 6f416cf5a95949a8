import Mathlib.Algebra.GroupWithZero.Nat
import Mathlib.Data.Int.Cast.Basic
import Kithara.PoolAccounts
import Kithara.TransitionSystem

/-! A region: its budget counter, the idle values of all its pools, the guards its users hold and
the operations under way, which take their atomic steps in any order. Who keeps a pool alive is
read off the guards, the schema's slots and the references of the operations. -/
namespace PoolRegion

open AtomicPrograms PoolOperations PoolAccounts TransitionSystem

variable {α : Type}

/-- What all operations share: the counter, whether a release ever found too little in it, the
reclaimer inventory with its rotation, and the queues (the entries of one slot are its queue). -/
structure Region (α : Type) where
  current : ℕ
  underflowed : Bool
  next : ℕ
  reclaimers : Option (List ℕ)
  idle : List (Slot × Buffer α)

def Region.new : Region α := ⟨0, false, 0, none, []⟩

/-- What the allocator adds to the capacity asked for; `none` when it fails. -/
structure Choice where
  extra : Option ℕ

def takeFirst (slot : Slot) :
    List (Slot × Buffer α) → Option (Buffer α × List (Slot × Buffer α))
  | [] => none
  | entry :: rest =>
    if entry.1 = slot then some (entry.2, rest)
    else (takeFirst slot rest).map fun found => (found.1, entry :: found.2)

def queued (slot : Slot) (idle : List (Slot × Buffer α)) : ℕ :=
  (idle.filter fun entry => entry.1 = slot).length

variable (pools : ℕ → PoolCore) (limit : ℕ)

def Region.tryGet (r : Region α) (slot : Slot) : Region α × Option (Buffer α) :=
  match takeFirst slot r.idle with
  | some (value, rest) => ({ r with idle := rest }, some value)
  | none => (r, none)

def Region.push (r : Region α) (slot : Slot) (value : Buffer α) :
    Region α × Except (Buffer α) Unit :=
  if queued slot r.idle < (pools slot.pool).slotCapacity slot then
    ({ r with idle := r.idle ++ [(slot, value)] }, .ok ())
  else
    (r, .error value)

def Region.tryAcquire (r : Region α) (amount : ℕ) : Region α × Except ℕ Unit :=
  if usizeRange ≤ r.current + amount then (r, .error r.current)
  else if limit < r.current + amount then (r, .error r.current)
  else ({ r with current := r.current + amount }, .ok ())

/-- `BudgetCounter::release`, with its underflow branch. -/
def Region.release (r : Region α) (amount : ℕ) : Region α :=
  if amount ≤ r.current then { r with current := r.current - amount }
  else { r with underflowed := true }

/-- `try_with_capacity`: the allocator gives what was asked or more, or fails. -/
def Choice.fresh (choice : Choice) (pool capacity : ℕ) : Option (Buffer α) :=
  match choice.extra with
  | none => none
  | some extra =>
    if (capacity + extra) * (pools pool).elementBytes < usizeRange then
      some (.empty (capacity + extra))
    else
      none

def Region.perform (alive : ℕ → Bool) (choice : Choice) (r : Region α) :
    (op : Op α) → Region α × op.Answer
  | .tryGet slot => r.tryGet slot
  | .push slot value => r.push pools slot value
  | .len slot => (r, queued slot r.idle)
  | .current => (r, r.current)
  | .tryAcquire amount => r.tryAcquire limit amount
  | .release charge => (r.release charge.amount, ())
  | .tryWithCapacity pool capacity => (r, choice.fresh pools pool capacity)
  | .moveFrom value other => (r, value.moveFrom other (choice.extra.getD 0))
  | .shrinkTo value minCapacity => (r, value.shrinkTo minCapacity (choice.extra.getD 0))
  | .commit _ _ => (r, ())
  | .replace _ => (r, ())
  | .reclaimers => (r, r.reclaimers)
  | .nextReclaimer => ({ r with next := (r.next + 1) % usizeRange }, r.next)
  | .upgrade pool => (r, alive pool)
  | .downgrade _ => (r, ())

structure Handle (α : Type) where
  pool : ℕ
  shard : ℕ
  value : Buffer α

inductive Request (α : Type) where
  | build (pool : ℕ)
  | acquire (pool shard : ℕ)
  | grow (handle : Handle α) (newLen : ℕ)
  | normalize (handle : Handle α)
  | renew (handle : Handle α)
  | shrinkTo (handle : Handle α) (minCapacity : ℕ)
  | drop (handle : Handle α)
  | reclaim (target : ℕ)
  | dropCore (pool : ℕ) (values : List (Buffer α))

/-- What a finished operation leaves: a pool for the schema, a guard, or nothing. -/
inductive Outcome (α : Type) where
  | built (pool : ℕ)
  | refused (error : PoolError)
  | holds (result : Except PoolError Unit) (handle : Handle α)
  | gone

def Request.program : Request α → Program α (Outcome α)
  | .build pool => do
    match ← newCore pools limit pool with
    | .ok _ => pure (.built pool)
    | .error error => pure (.refused error)
  | .acquire pool shard => do
    let value ← PoolOperations.acquire pools pool shard
    pure (.holds (.ok ()) ⟨pool, shard, value⟩)
  | .grow handle newLen => do
    let grown ← PoolOperations.grow pools limit handle.pool handle.value newLen handle.shard
    pure (.holds grown.1 ⟨handle.pool, handle.shard, grown.2⟩)
  | .normalize handle => do
    let value ← PoolOperations.normalize pools handle.pool handle.value
    pure (.holds (.ok ()) ⟨handle.pool, handle.shard, value⟩)
  | .renew handle => do
    let value ← PoolOperations.renew pools handle.pool handle.value handle.shard
    pure (.holds (.ok ()) ⟨handle.pool, handle.shard, value⟩)
  | .shrinkTo handle minCapacity => do
    let value ← PoolOperations.shrinkTo pools handle.pool handle.value minCapacity
    pure (.holds (.ok ()) ⟨handle.pool, handle.shard, value⟩)
  | .drop handle => do
    put pools handle.pool handle.value handle.shard
    pure .gone
  | .reclaim target => do
    let _ ← PoolOperations.reclaim pools target
    pure .gone
  | .dropCore pool values => do
    PoolOperations.dropCore pools pool values
    pure .gone

def sizes (pool : ℕ) (values : List (Buffer α)) : ℕ :=
  (values.map (bytes pools pool)).sum

def Handle.bytes (handle : Handle α) : ℕ :=
  PoolAccounts.bytes pools handle.pool handle.value

def Request.ledger : Request α → Ledger
  | .build pool => ⟨0, 0, 0, [pool]⟩
  | .acquire pool _ => ⟨0, 0, 0, [pool]⟩
  | .grow handle _ => ⟨handle.bytes pools, 0, 0, [handle.pool]⟩
  | .normalize handle => ⟨handle.bytes pools, 0, 0, [handle.pool]⟩
  | .renew handle => ⟨handle.bytes pools, 0, 0, [handle.pool]⟩
  | .shrinkTo handle _ => ⟨handle.bytes pools, 0, 0, [handle.pool]⟩
  | .drop handle => ⟨handle.bytes pools, 0, 0, [handle.pool]⟩
  | .reclaim _ => ⟨0, 0, 0, []⟩
  | .dropCore pool values => ⟨sizes pools pool values, 0, 0, []⟩

/-- An operation under way, with what its own steps added to the counter and took out of the
queues so far. -/
structure Activity (α : Type) where
  request : Request α
  program : Program α (Outcome α)
  ledger : Ledger
  added : ℤ
  took : ℤ

def launch (request : Request α) : Activity α :=
  ⟨request, request.program pools limit, request.ledger pools, 0, 0⟩

structure State (α : Type) where
  region : Region α
  slots : List ℕ
  handles : List (Handle α)
  tasks : List (Activity α)
  begun : List ℕ
  dropped : List ℕ

def State.initial : State α := ⟨Region.new, [], [], [], [], []⟩

def State.alive (s : State α) (pool : ℕ) : Bool :=
  decide (pool ∈ s.slots) || s.handles.any (fun handle => handle.pool == pool) ||
    s.tasks.any (fun task => decide (pool ∈ task.ledger.refs))

def idleBytes (idle : List (Slot × Buffer α)) : ℕ :=
  (idle.map fun entry => PoolAccounts.bytes pools entry.1.pool entry.2).sum

inductive Use where
  | grow (newLen : ℕ)
  | normalize
  | renew
  | shrinkTo (minCapacity : ℕ)
  | drop

def Use.request (handle : Handle α) : Use → Request α
  | .grow newLen => .grow handle newLen
  | .normalize => .normalize handle
  | .renew => .renew handle
  | .shrinkTo minCapacity => .shrinkTo handle minCapacity
  | .drop => .drop handle

/-- Changes of the contents within the capacity: resizes after a growth, pushes, truncation. -/
def Handle.edit (handle : Handle α) (contents : List α) : Handle α :=
  if h : contents.length ≤ handle.value.capacity then
    { handle with value := ⟨handle.value.capacity, contents, h⟩ }
  else
    handle

inductive Label (α : Type) where
  | build (pool : ℕ)
  | install (reclaimers : List ℕ)
  | acquire (pool shard : ℕ)
  | reclaim (target : ℕ)
  | use (index : ℕ) (what : Use)
  | edit (index : ℕ) (contents : List α)
  | advance (index : ℕ) (choice : Choice)
  | finish (index : ℕ)
  | dropSlot (pool : ℕ)
  | dropCore (pool : ℕ)

def Activity.calls (task : Activity α) : Bool :=
  match task.program with
  | .call _ _ => true
  | .ret _ => false

def State.advance (s : State α) (index : ℕ) (task : Activity α) (choice : Choice) : State α :=
  match task.program with
  | .ret _ => s
  | .call op k =>
    let done := s.region.perform pools limit s.alive choice op
    { s with
      region := done.1
      tasks := s.tasks.set index
        { task with
          program := k done.2
          ledger := task.ledger.after pools op done.2
          added := task.added + (done.1.current - s.region.current)
          took := task.took + (idleBytes pools s.region.idle - idleBytes pools done.1.idle) } }

def State.finish (s : State α) (index : ℕ) (task : Activity α) : State α :=
  match task.program with
  | .call _ _ => s
  | .ret (.holds _ handle) =>
    { s with handles := s.handles ++ [handle], tasks := s.tasks.eraseIdx index }
  | .ret (.built pool) =>
    { s with slots := pool :: s.slots, tasks := s.tasks.eraseIdx index }
  | .ret (.refused _) => { s with tasks := s.tasks.eraseIdx index }
  | .ret .gone => { s with tasks := s.tasks.eraseIdx index }

def State.spawn (s : State α) (request : Request α) : State α :=
  { s with tasks := s.tasks ++ [launch pools limit request] }

/-- `Core::drop` has the pool to itself: it takes all that is idle there, the order unseen. -/
def State.drain (s : State α) (pool : ℕ) : List (Buffer α) :=
  (s.region.idle.filter fun entry => entry.1.pool = pool).map Prod.snd

def State.Enabled (s : State α) : Label α → Prop
  | .build pool => pool ∉ s.begun
  | .install _ => s.region.reclaimers = none
  | .acquire pool shard => pool ∈ s.slots ∧ shard < (pools pool).shards
  | .reclaim _ => True
  | .use index _ => index < s.handles.length
  | .edit index contents =>
    (s.handles[index]?).any (fun handle => decide (contents.length ≤ handle.value.capacity)) = true
  | .advance index _ => (s.tasks[index]?).any Activity.calls = true
  | .finish index => (s.tasks[index]?).any (fun task => !task.calls) = true
  | .dropSlot pool => pool ∈ s.slots
  | .dropCore pool => pool ∈ s.begun ∧ pool ∉ s.dropped ∧ s.alive pool = false

instance (s : State α) : (label : Label α) → Decidable (s.Enabled pools label)
  | .build pool => inferInstanceAs (Decidable (pool ∉ s.begun))
  | .install _ => inferInstanceAs (Decidable (s.region.reclaimers = none))
  | .acquire pool shard =>
    inferInstanceAs (Decidable (pool ∈ s.slots ∧ shard < (pools pool).shards))
  | .reclaim _ => instDecidableTrue
  | .use index _ => inferInstanceAs (Decidable (index < s.handles.length))
  | .edit _ _ => instDecidableEqBool _ _
  | .advance _ _ => instDecidableEqBool _ _
  | .finish _ => instDecidableEqBool _ _
  | .dropSlot pool => inferInstanceAs (Decidable (pool ∈ s.slots))
  | .dropCore pool =>
    inferInstanceAs (Decidable (pool ∈ s.begun ∧ pool ∉ s.dropped ∧ s.alive pool = false))

def State.next (s : State α) : Label α → State α
  | .build pool => { s with begun := pool :: s.begun }.spawn pools limit (.build pool)
  | .install reclaimers => { s with region := { s.region with reclaimers := some reclaimers } }
  | .acquire pool shard => s.spawn pools limit (.acquire pool shard)
  | .reclaim target => s.spawn pools limit (.reclaim target)
  | .use index what =>
    match s.handles[index]? with
    | none => s
    | some handle =>
      { s with handles := s.handles.eraseIdx index }.spawn pools limit (what.request handle)
  | .edit index contents =>
    match s.handles[index]? with
    | none => s
    | some handle => { s with handles := s.handles.set index (handle.edit contents) }
  | .advance index choice =>
    match s.tasks[index]? with
    | none => s
    | some task => s.advance pools limit index task choice
  | .finish index =>
    match s.tasks[index]? with
    | none => s
    | some task => s.finish index task
  | .dropSlot pool => { s with slots := s.slots.erase pool }
  | .dropCore pool =>
    { s with
      region := { s.region with
        idle := s.region.idle.filter fun entry => entry.1.pool ≠ pool }
      dropped := pool :: s.dropped }.spawn pools limit (.dropCore pool (s.drain pool))

def machine : Machine (State α) (Label α) where
  Enabled := State.Enabled pools
  next := State.next pools limit

instance (s : State α) (label : Label α) : Decidable ((machine pools limit).Enabled s label) :=
  inferInstanceAs (Decidable (s.Enabled pools label))

end PoolRegion

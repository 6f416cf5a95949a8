import Mathlib.Algebra.Group.Nat.Defs
import Mathlib.Order.Lattice.Nat
import Kithara.AtomicPrograms

/-! Buffer pools under one region budget: the operations of a pool as programs over atomic steps on
the queues of all pools and on the budget counter. A value that is dropped or shrunk and the
release of its charge are one step; so are a reservation and its `Drop`. -/
namespace PoolOperations

open AtomicPrograms

def usizeRange : ℕ := 2 ^ 64

def usizeMax : ℕ := usizeRange - 1

def saturatingAdd (a b : ℕ) : ℕ := min (a + b) usizeMax
def saturatingMul (a b : ℕ) : ℕ := min (a * b) usizeMax

inductive PoolError where
  | overallBudgetExceeded (additionalBytes allocatedBytes maxBytes : ℕ)
  | allocationFailed (additionalBytes allocatedBytes maxBytes : ℕ)
  | capacityOverflow (elements elementSize : ℕ)
  | invalidConfig (field reason : String)
  deriving DecidableEq

@[ext]
structure Buffer (α : Type) where
  capacity : ℕ
  contents : List α
  holds : contents.length ≤ capacity
  deriving DecidableEq

variable {α : Type}

def Buffer.empty (capacity : ℕ) : Buffer α :=
  ⟨capacity, [], Nat.zero_le _⟩

def Buffer.clear (value : Buffer α) : Buffer α :=
  .empty value.capacity

/-- `append`: a vector without the room reallocates, to at least what is needed. -/
def Buffer.moveFrom (value other : Buffer α) (spare : ℕ) : Buffer α where
  capacity :=
    if value.contents.length + other.contents.length ≤ value.capacity then value.capacity
    else value.contents.length + other.contents.length + spare
  contents := value.contents ++ other.contents
  holds := by
    rw [List.length_append]
    split <;> omega

/-- `shrink_to` keeps at least the contents and the capacity asked for. -/
def Buffer.shrinkTo (value : Buffer α) (minCapacity spare : ℕ) : Buffer α where
  capacity := min value.capacity (max value.contents.length minCapacity + spare)
  contents := value.contents
  holds := by
    have := value.holds
    omega

/-- One pool: its shards, the size of an element and its `PoolConfig`. -/
structure PoolCore where
  shards : ℕ
  elementBytes : ℕ
  initialBuffers : ℕ
  initialCapacity : ℕ
  maxBuffers : ℕ
  maxRetainedCapacity : ℕ

def maxSlots : ℕ := 1024
def maxProbe : ℕ := 4

inductive Slot where
  | shard (pool index : ℕ)
  | cold (pool : ℕ)
  deriving DecidableEq

def Slot.pool : Slot → ℕ
  | .shard pool _ => pool
  | .cold pool => pool

def PoolCore.slotCapacity (core : PoolCore) : Slot → ℕ
  | .shard _ _ => min (core.maxBuffers / core.shards) maxSlots
  | .cold _ => core.initialBuffers

def PoolCore.storageBytes (core : PoolCore) (capacity : ℕ) : Option ℕ :=
  if capacity * core.elementBytes < usizeRange then some (capacity * core.elementBytes) else none

def PoolCore.bytesForCapacity (core : PoolCore) (capacity : ℕ) : Except PoolError ℕ :=
  match core.storageBytes capacity with
  | some bytes => .ok bytes
  | none => .error (.capacityOverflow capacity ((core.storageBytes 1).getD usizeMax))

def PoolCore.byteSize (core : PoolCore) (value : Buffer α) : Except PoolError ℕ :=
  core.bytesForCapacity value.capacity

def PoolCore.byteSizeOrMax (core : PoolCore) (value : Buffer α) : ℕ :=
  match core.byteSize value with
  | .ok bytes => bytes
  | .error _ => usizeMax

/-- An empty vector; of elements without a size its capacity is `usize::MAX`. -/
def PoolCore.default (core : PoolCore) : Buffer α :=
  .empty (if core.elementBytes = 0 then usizeMax else 0)

/-- `PoolShard::normalize` after the clear: is the capacity one the pool keeps? -/
def PoolCore.retains (core : PoolCore) (value : Buffer α) : Bool :=
  decide (0 < value.capacity) &&
    (decide (core.maxRetainedCapacity = 0) || decide (value.capacity ≤ core.maxRetainedCapacity))

/-- What a release gives back: (part of) a reservation, a dropped buffer, or what a buffer lost by
being shrunk. -/
inductive Charge where
  | reservation (amount : ℕ)
  | buffer (bytes : ℕ)
  | shrunk (before after : ℕ)
  deriving DecidableEq

def Charge.amount : Charge → ℕ
  | .reservation amount => amount
  | .buffer bytes => bytes
  | .shrunk before after => before - after

/-- The atomic steps. `commit` stands for `Reservation::commit` of everything reserved for a fresh
buffer, `replace` for the assignment that drops the buffer a grown one replaces. -/
inductive Op (α : Type) where
  | tryGet (slot : Slot)
  | push (slot : Slot) (value : Buffer α)
  | len (slot : Slot)
  | current
  | tryAcquire (amount : ℕ)
  | release (charge : Charge)
  | tryWithCapacity (pool capacity : ℕ)
  | moveFrom (value other : Buffer α)
  | shrinkTo (value : Buffer α) (minCapacity : ℕ)
  | commit (bytes oldBytes : ℕ)
  | replace (oldBytes : ℕ)
  | reclaimers
  | nextReclaimer
  | upgrade (pool : ℕ)
  | downgrade (pool : ℕ)

def Op.Answer : Op α → Type
  | .tryGet _ => Option (Buffer α)
  | .push _ _ => Except (Buffer α) Unit
  | .len _ => ℕ
  | .current => ℕ
  | .tryAcquire _ => Except ℕ Unit
  | .release _ => Unit
  | .tryWithCapacity _ _ => Option (Buffer α)
  | .moveFrom _ _ => Buffer α
  | .shrinkTo _ _ => Buffer α
  | .commit _ _ => Unit
  | .replace _ => Unit
  | .reclaimers => Option (List ℕ)
  | .nextReclaimer => ℕ
  | .upgrade _ => Bool
  | .downgrade _ => Unit

abbrev Program (α β : Type) := Prog (Op α) Op.Answer β

section Steps

def tryGet (slot : Slot) : Program α (Option (Buffer α)) := Prog.op (Op.tryGet slot)
def push (slot : Slot) (value : Buffer α) : Program α (Except (Buffer α) Unit) :=
  Prog.op (Op.push slot value)
def len (slot : Slot) : Program α ℕ := Prog.op (Op.len slot)
def loadCurrent : Program α ℕ := Prog.op Op.current
def tryAcquire (amount : ℕ) : Program α (Except ℕ Unit) := Prog.op (Op.tryAcquire amount)
def releaseCharge (charge : Charge) : Program α Unit := Prog.op (Op.release charge)
def tryWithCapacity (pool capacity : ℕ) : Program α (Option (Buffer α)) :=
  Prog.op (Op.tryWithCapacity pool capacity)
def moveFrom (value other : Buffer α) : Program α (Buffer α) := Prog.op (Op.moveFrom value other)
def shrink (value : Buffer α) (minCapacity : ℕ) : Program α (Buffer α) :=
  Prog.op (Op.shrinkTo value minCapacity)
def commit (bytes oldBytes : ℕ) : Program α Unit := Prog.op (Op.commit bytes oldBytes)
def replace (oldBytes : ℕ) : Program α Unit := Prog.op (Op.replace oldBytes)
def loadReclaimers : Program α (Option (List ℕ)) := Prog.op Op.reclaimers
def nextReclaimer : Program α ℕ := Prog.op Op.nextReclaimer
def upgrade (pool : ℕ) : Program α Bool := Prog.op (Op.upgrade pool)
def downgrade (pool : ℕ) : Program α Unit := Prog.op (Op.downgrade pool)

end Steps

section Budget

def release (charge : Charge) : Program α Unit :=
  if 0 < charge.amount then releaseCharge charge else pure ()

def reserve (limit amount : ℕ) : Program α (Except PoolError Unit) :=
  if 0 < amount then do
    match ← tryAcquire amount with
    | .ok _ => pure (.ok ())
    | .error current => pure (.error (.overallBudgetExceeded amount current limit))
  else
    pure (.ok ())

end Budget

variable (pools : ℕ → PoolCore) (limit : ℕ)

def allocate (pool capacity oldBytes : ℕ) : Program α (Except PoolError (Buffer α)) :=
  match (pools pool).bytesForCapacity capacity with
  | .error error => pure (.error error)
  | .ok requestedBytes =>
    if requestedBytes < oldBytes then
      pure (.error (.invalidConfig "buffer growth"
        "new capacity is smaller than the current capacity"))
    else do
      let requestedDelta := requestedBytes - oldBytes
      match ← reserve limit requestedDelta with
      | .error error => pure (.error error)
      | .ok _ =>
        match ← tryWithCapacity pool capacity with
        | none => do
          let current ← loadCurrent
          release (.reservation requestedDelta)
          pure (.error (.allocationFailed requestedDelta current limit))
        | some grown =>
          match (pools pool).byteSize grown with
          | .error error => do
            release (.reservation requestedDelta)
            pure (.error error)
          | .ok actualBytes =>
            if actualBytes < oldBytes then do
              release (.reservation requestedDelta)
              pure (.error (.invalidConfig "buffer growth"
                "allocator returned less capacity than the current buffer"))
            else
              let actualDelta := actualBytes - oldBytes
              if requestedDelta < actualDelta then do
                match ← reserve limit (actualDelta - requestedDelta) with
                | .error error => do
                  release (.reservation requestedDelta)
                  pure (.error error)
                | .ok _ => do
                  commit actualBytes oldBytes
                  pure (.ok grown)
              else do
                release (.reservation (requestedDelta - actualDelta))
                commit actualBytes oldBytes
                pure (.ok grown)

def releaseValue (pool : ℕ) (value : Buffer α) : Program α ℕ := do
  let bytes := (pools pool).byteSizeOrMax value
  release (.buffer bytes)
  pure bytes

/-- `Core::put`: `PoolShard::try_put`, and the release of a value it does not take. -/
def put (pool : ℕ) (value : Buffer α) (shard : ℕ) : Program α Unit := do
  if (pools pool).retains value.clear then
    match ← push (.shard pool shard) value.clear with
    | .ok _ => pure ()
    | .error value => do
      let _ ← releaseValue pools pool value
      pure ()
  else do
    let _ ← releaseValue pools pool value.clear
    pure ()

section Acquire

def trySteal (pool home : ℕ) : Program α (Option (Buffer α)) := do
  let probes := min maxProbe ((pools pool).shards - 1)
  match ← forEach (fun offset (_ : Unit) => do
      match ← tryGet (.shard pool ((home + offset) % (pools pool).shards)) with
      | some value => pure (Flow.found value)
      | none => pure (Flow.next ()))
    (List.range' 1 probes) () with
  | .inr value => pure (some value)
  | .inl _ => pure none

def popCold (pool : ℕ) : Program α (Option (Buffer α)) :=
  if 0 < (pools pool).initialBuffers then tryGet (.cold pool) else pure none

def acquire (pool shard : ℕ) : Program α (Buffer α) := do
  match ← tryGet (.shard pool shard) with
  | some value => pure value
  | none =>
    match ← trySteal pools pool shard with
    | some value => pure value
    | none =>
      match ← popCold pools pool with
      | some value => pure value
      | none => pure (pools pool).default

end Acquire

section Growth

/-- The scan of one queue for a value with the room: one that lacks it goes back, one that has it
takes over the contents, and the value it replaces is put in the home shard. -/
def reuseFrom (slot : Slot) (giveBack : Buffer α → Program α Unit) (pool home : ℕ)
    (current : Buffer α) (newLen : ℕ) : Program α (Unit ⊕ Buffer α) := do
  let candidates ← len slot
  forEach (fun _ _ => do
      match ← tryGet slot with
      | none => pure (Flow.stop ())
      | some value =>
        if newLen ≤ value.capacity then do
          let value ← moveFrom value current
          put pools pool current.clear home
          pure (Flow.found value)
        else do
          giveBack value
          pure (Flow.next ()))
    (List.range candidates) ()

/-- `cold.push(value)`, and `self.put` in the home shard when the queue is full again. -/
def putCold (pool home : ℕ) (value : Buffer α) : Program α Unit := do
  match ← push (.cold pool) value with
  | .ok _ => pure ()
  | .error value => put pools pool value home

/-- `Core::reuse_for_growth`: the new current value, if one was found. -/
def reuseForGrowth (pool : ℕ) (current : Buffer α) (newLen home : ℕ) :
    Program α (Option (Buffer α)) := do
  match ← forEach (fun offset (_ : Unit) => do
      let shard := (home + offset) % (pools pool).shards
      match ← reuseFrom pools (.shard pool shard) (fun value => put pools pool value shard)
          pool home current newLen with
      | .inl _ => pure (Flow.next ())
      | .inr value => pure (Flow.found value))
    (List.range (pools pool).shards) () with
  | .inr value => pure (some value)
  | .inl _ =>
    if 0 < (pools pool).initialBuffers then do
      match ← reuseFrom pools (.cold pool) (putCold pools pool home) pool home current newLen with
      | .inl _ => pure none
      | .inr value => pure (some value)
    else
      pure none

/-- The release of the candidates of one queue, until `target` bytes are released. -/
def releaseFrom (slot : Slot) (pool target released : ℕ) : Program α (ℕ ⊕ ℕ) := do
  let candidates ← len slot
  forEach (fun _ released => do
      match ← tryGet slot with
      | none => pure (Flow.stop released)
      | some value => do
        let bytes ← releaseValue pools pool value
        let released := saturatingAdd released bytes
        if target ≤ released then pure (Flow.found released) else pure (Flow.next released))
    (List.range candidates) released

def releaseIdle (pool target : ℕ) : Program α ℕ :=
  if target = 0 then
    pure 0
  else do
    match ← forEach (fun index released => do
        match ← releaseFrom pools (.shard pool index) pool target released with
        | .inl released => pure (Flow.next released)
        | .inr released => pure (Flow.found released))
      (List.range (pools pool).shards) 0 with
    | .inr released => pure released
    | .inl released =>
      if 0 < (pools pool).initialBuffers then do
        match ← releaseFrom pools (.cold pool) pool target released with
        | .inl released => pure released
        | .inr released => pure released
      else
        pure released

def reclaim (target : ℕ) : Program α ℕ :=
  if target = 0 then
    pure 0
  else do
    match ← loadReclaimers with
    | none => pure 0
    | some reclaimers =>
      if reclaimers.isEmpty then
        pure 0
      else do
        let next ← nextReclaimer
        let start := next % reclaimers.length
        match ← forEach (β := ℕ) (fun offset released => do
            let reclaimer :=
              reclaimers.getD ((start + offset) % usizeRange % reclaimers.length) 0
            let upgraded ← upgrade reclaimer
            if upgraded then do
              let freed ← releaseIdle pools reclaimer (target - released)
              downgrade reclaimer
              let released := saturatingAdd released freed
              if target ≤ released then pure (Flow.stop released)
              else pure (Flow.next released)
            else
              pure (Flow.next released))
          (List.range reclaimers.length) 0 with
        | .inl released => pure released
        | .inr released => pure released

def reclaimFor (error : PoolError) : Program α Bool :=
  match error with
  | .overallBudgetExceeded additionalBytes allocatedBytes maxBytes => do
    let _ ← reclaim pools (additionalBytes - (maxBytes - allocatedBytes))
    pure true
  | _ => pure false

/-- The errors after which `grow` looks for an idle buffer to reuse. -/
def PoolError.mayReuse : PoolError → Bool
  | .overallBudgetExceeded _ _ _ => true
  | .allocationFailed _ _ _ => true
  | _ => false

def targetCapacity (newLen oldCapacity oldBytes available elementBytes : ℕ) : ℕ :=
  let affordableCapacity := saturatingAdd oldBytes available / elementBytes
  let amortizedCapacity := max newLen (saturatingMul oldCapacity 2)
  if newLen ≤ affordableCapacity then min amortizedCapacity affordableCapacity else newLen

def installGrown (grown current : Buffer α) (oldBytes : ℕ) :
    Program α (Except PoolError Unit × Buffer α) := do
  let grown ← moveFrom grown current
  replace oldBytes
  pure (.ok (), grown)

def reuseAfter (error : PoolError) (pool : ℕ) (current : Buffer α) (newLen home : ℕ) :
    Program α (Option (Buffer α)) :=
  if error.mayReuse then reuseForGrowth pools pool current newLen home else pure none

def growUnderPressure (pool : ℕ) (current : Buffer α) (newLen home target oldBytes : ℕ)
    (error : PoolError) : Program α (Except PoolError Unit × Buffer α) := do
  match ← reuseAfter pools error pool current newLen home with
  | some value => pure (.ok (), value)
  | none => do
    let reclaimed ← reclaimFor pools error
    if reclaimed then do
      match ← allocate pools limit pool target oldBytes with
      | .ok grown => installGrown grown current oldBytes
      | .error error => pure (.error error, current)
    else
      pure (.error error, current)

def grow (pool : ℕ) (current : Buffer α) (newLen home : ℕ) :
    Program α (Except PoolError Unit × Buffer α) :=
  if newLen ≤ current.capacity then
    pure (.ok (), current)
  else
    match (pools pool).bytesForCapacity current.capacity, (pools pool).bytesForCapacity 1 with
    | .error error, _ => pure (.error error, current)
    | .ok _, .error error => pure (.error error, current)
    | .ok oldBytes, .ok elementBytes =>
      if elementBytes = 0 then
        pure (.ok (), current)
      else do
        let allocated ← loadCurrent
        let target :=
          targetCapacity newLen current.capacity oldBytes (limit - allocated) elementBytes
        match ← allocate pools limit pool target oldBytes with
        | .ok grown => installGrown grown current oldBytes
        | .error error => growUnderPressure pools limit pool current newLen home target oldBytes error

end Growth

section Holding

def normalize (pool : ℕ) (current : Buffer α) : Program α (Buffer α) := do
  if (pools pool).retains current.clear then
    pure current.clear
  else do
    let _ ← releaseValue pools pool current.clear
    pure (pools pool).default

def renew (pool : ℕ) (current : Buffer α) (shard : ℕ) : Program α (Buffer α) := do
  put pools pool current shard
  pure (pools pool).default

def shrinkTo (pool : ℕ) (current : Buffer α) (minCapacity : ℕ) : Program α (Buffer α) := do
  let before := (pools pool).byteSizeOrMax current
  let current ← shrink current minCapacity
  let after := (pools pool).byteSizeOrMax current
  release (.shrunk before after)
  pure current

end Holding

section Lifetime

def effectiveBuffers (core : PoolCore) : ℕ :=
  min (core.maxBuffers / core.shards) maxSlots * core.shards

def PoolCore.validate (core : PoolCore) : Except PoolError Unit :=
  if core.shards = 0 then
    .error (.invalidConfig "shards" "must contain at least one shard")
  else if core.maxBuffers < core.shards then
    .error (.invalidConfig "max_buffers" "must provide at least one retained slot per shard")
  else if usizeRange ≤ effectiveBuffers core then
    .error (.invalidConfig "max_buffers" "effective shard capacity overflows usize")
  else if effectiveBuffers core < core.initialBuffers then
    .error (.invalidConfig "initial_buffers" "exceeds the effective retained-buffer capacity")
  else
    match core.storageBytes core.initialCapacity with
    | none => .error (.invalidConfig "initial_capacity" "initial payload byte count overflows usize")
    | some bytes =>
      if usizeRange ≤ bytes * core.initialBuffers then
        .error (.invalidConfig "initial_capacity" "initial payload byte count overflows usize")
      else
        .ok ()

def fillCold (pool : ℕ) : Program α (Flow Unit PoolError) := do
  match ← allocate pools limit pool (pools pool).initialCapacity 0 with
  | .error error => pure (Flow.found error)
  | .ok value =>
    match ← push (.cold pool) value with
    | .ok _ => pure (Flow.next ())
    | .error value =>
      match (pools pool).byteSize value with
      | .error error => pure (Flow.found error)
      | .ok bytes => do
        release (.buffer bytes)
        pure (Flow.found (.invalidConfig "initial_buffers"
          "cold-start queue rejected a validated payload"))

def newCore (pool : ℕ) : Program α (Except PoolError Unit) :=
  match (pools pool).validate with
  | .error error => pure (.error error)
  | .ok _ => do
    match ← forEach (fun _ _ => fillCold pools limit pool)
        (List.range (pools pool).initialBuffers) () with
    | .inl _ => pure (.ok ())
    | .inr error => pure (.error error)

/-- `Core::drop`, over the values it pops: the cold ones, then those of the shards. -/
def dropCore (pool : ℕ) (values : List (Buffer α)) : Program α Unit := do
  let _ ← forEach (β := ℕ) (fun value _ => do
      let _ ← releaseValue pools pool value
      pure (Flow.next ()))
    values ()
  pure ()

end Lifetime

end PoolOperations

import Mathlib.Algebra.Group.Nat.Defs
import Mathlib.Data.Finset.Insert
import Mathlib.Data.Finset.Erase
import Mathlib.Logic.Function.Basic
import Kithara.RecencyCache
import Kithara.TransitionSystem

/-! The cache of opened resources in front of an asset store: an entry keeps a reader of its
resource and a weak token of the writer, entries are displaced by hits and recency, and a byte limit
trims the ones already committed. Every call holds the lock of the cache, so it is one step. -/
namespace HandleCache

open Extraction RecencyCache TransitionSystem

inductive ResourceKey where
  | relative (assetRoot relPath : String)
  | absolute (path : String)
  deriving DecidableEq

namespace ResourceKey

def isAbsolute : ResourceKey → Bool
  | .relative _ _ => false
  | .absolute _ => true

def assetRoot : ResourceKey → Option String
  | .relative assetRoot _ => some assetRoot
  | .absolute _ => none

end ResourceKey

/-- Request identities and processing contexts are told apart, and nothing more. -/
structure CacheKey (ι χ : Type) where
  key : ResourceKey
  identity : Option ι
  ctx : Option χ
  deriving DecidableEq

inductive ResourceStatus where
  | active
  | committed (finalLen : Option ℕ)
  | failed (reason : String)
  | cancelled

/-- What every reader and writer of one resource sees of it. -/
structure Cell where
  status : ResourceStatus
  len : Option ℕ

/-- Readers and writers are known by the cell of their resource, a weak token by its number. -/
structure CacheEntry where
  reader : ℕ
  hits : ℕ
  writer : Option ℕ

/-- A live writer. `removed` records that its resource was removed behind it. -/
structure CachedWriter (ι χ : Type) where
  key : CacheKey ι χ
  cell : ℕ
  token : ℕ
  removed : Bool

structure CachedReader (ι χ : Type) where
  key : CacheKey ι χ
  cell : ℕ
  deriving DecidableEq

structure CachePolicy where
  capacity : ℕ
  positive : 0 < capacity
  maxBytes : Option ℕ
  /-- Dropping a handle frees the bytes of its resource. -/
  volatile : Bool

def wordMax : ℕ := 2 ^ 64 - 1

def saturatingAdd (a b : ℕ) : ℕ := min (a + b) wordMax

variable (ι χ : Type) [DecidableEq ι] [DecidableEq χ]

abbrev Cache := Lru (CacheKey ι χ) CacheEntry

structure State where
  cache : Cache ι χ
  pinned : Finset ResourceKey
  cells : ℕ → Cell
  writers : List (CachedWriter ι χ)
  readers : List (CachedReader ι χ)
  /-- The next cell and the next token. -/
  cell : ℕ
  token : ℕ

/-- A call's state, and what it displaced, reported and did on the way. -/
structure Outcome where
  state : State ι χ
  displaced : List (CacheKey ι χ × CacheEntry)
  reported : List ResourceKey
  inserted : Bool
  enforced : Bool

variable {ι χ}

def Outcome.quiet (s : State ι χ) : Outcome ι χ :=
  { state := s, displaced := [], reported := [], inserted := false, enforced := false }

def isActive : ResourceStatus → Bool
  | .active => true
  | _ => false

def isWriting (writers : List (CachedWriter ι χ)) (entry : CacheEntry) : Bool :=
  writers.any fun w => entry.writer = some w.token

def isCommittedStatus : ResourceStatus → Bool
  | .committed _ => true
  | _ => false

def State.isCommitted (s : State ι χ) (entry : CacheEntry) : Bool :=
  !isWriting s.writers entry && isCommittedStatus (s.cells entry.reader).status

def State.isDead (s : State ι χ) (entry : CacheEntry) : Bool :=
  !isWriting s.writers entry && !s.isCommitted entry

/-- A committed resource of unknown length counts as unbounded. -/
def committedBytes (cells : ℕ → Cell) (entry : CacheEntry) : Option ℕ :=
  match (cells entry.reader).status with
  | .committed finalLen => some ((finalLen.or (cells entry.reader).len).getD wordMax)
  | _ => none

def isProtectedResource (cells : ℕ → Cell) (entry : CacheEntry) : Bool :=
  isActive (cells entry.reader).status

def evictable (cells : ℕ → Cell) (pinned : Finset ResourceKey) (x : CacheKey ι χ × CacheEntry) :
    Bool := !(isProtectedResource cells x.2 || decide (x.1.key ∈ pinned))

def trimmable (cells : ℕ → Cell) (pinned : Finset ResourceKey) (x : CacheKey ι χ × CacheEntry) :
    Bool :=
  match committedBytes cells x.2 with
  | none => false
  | some bytes => !(bytes == 0 || decide (x.1.key ∈ pinned))

def leastHit : List (CacheKey ι χ × CacheEntry) → Option (CacheKey ι χ)
  | [] => none
  | x :: rest => some (rest.foldl (fun best candidate =>
      if candidate.2.hits ≤ best.2.hits then candidate else best) x).1

def popKey (c : Cache ι χ) (key : CacheKey ι χ) :
    Option ((CacheKey ι χ × CacheEntry) × Cache ι χ) :=
  (c.pop key).map fun r => ((key, r.1), r.2)

def popEvictable (cells : ℕ → Cell) (pinned : Finset ResourceKey) (c : Cache ι χ) :
    Option ((CacheKey ι χ × CacheEntry) × Cache ι χ) :=
  (leastHit (c.entries.filter (evictable cells pinned))).bind (popKey c)

def pinnedCacheCount (cells : ℕ → Cell) (pinned : Finset ResourceKey) (c : Cache ι χ) : ℕ :=
  (c.entries.filter fun x => !evictable cells pinned x).length

def retainedBytes (cells : ℕ → Cell) (pinned : Finset ResourceKey) (c : Cache ι χ) : ℕ :=
  ((c.entries.filter fun x => !decide (x.1.key ∈ pinned)).filterMap fun x =>
    committedBytes cells x.2).foldl saturatingAdd 0

def displaceOne (cells : ℕ → Cell) (pinned : Finset ResourceKey) (effective : ℕ) (c : Cache ι χ) :
    Option ((CacheKey ι χ × CacheEntry) × Cache ι χ) :=
  if c.entries.length ≥ effective then popEvictable cells pinned c else none

def grown (c : Cache ι χ) : Cache ι χ :=
  if c.entries.length ≥ c.cap then c.resize (c.entries.length + 1) (Nat.succ_pos _) else c

def cacheEntry (policy : CachePolicy) (cells : ℕ → Cell) (pinned : Finset ResourceKey)
    (c : Cache ι χ) (key : CacheKey ι χ) (entry : CacheEntry) :
    List (CacheKey ι χ × CacheEntry) × Cache ι χ :=
  let effective := policy.capacity + pinnedCacheCount cells pinned c
  let displaced := exhaust (displaceOne cells pinned effective) c.entries.length c
  let pushed := (grown displaced.2).push key entry
  (displaced.1 ++ pushed.1.toList, pushed.2)

def trimOne (cells : ℕ → Cell) (pinned : Finset ResourceKey) (maxBytes : ℕ) (c : Cache ι χ) :
    Option ((CacheKey ι χ × CacheEntry) × Cache ι χ) :=
  if retainedBytes cells pinned c > maxBytes then
    (leastHit (c.entries.filter (trimmable cells pinned))).bind (popKey c)
  else none

def trimToMaxBytes (cells : ℕ → Cell) (pinned : Finset ResourceKey) (maxBytes : ℕ)
    (c : Cache ι χ) : List (CacheKey ι χ × CacheEntry) × Cache ι χ :=
  exhaust (trimOne cells pinned maxBytes) c.entries.length c

def distinctKeys (displaced : List (CacheKey ι χ × CacheEntry)) : List ResourceKey :=
  displaced.foldl (fun keys x => if x.1.key ∈ keys then keys else keys ++ [x.1.key]) []

/-- Only a volatile cache with a byte limit enforces it. -/
def enforceCapacity (policy : CachePolicy) (s : State ι χ) : Outcome ι χ :=
  match policy.volatile, policy.maxBytes with
  | true, some maxBytes =>
    let trimmed := trimToMaxBytes s.cells s.pinned maxBytes s.cache
    { state := { s with cache := trimmed.2 }
      displaced := trimmed.1
      reported := distinctKeys trimmed.1
      inserted := false
      enforced := true }
  | _, _ => .quiet s

def insertEntry (policy : CachePolicy) (s : State ι χ) (key : CacheKey ι χ) (entry : CacheEntry) :
    Outcome ι χ :=
  let made := cacheEntry policy s.cells s.pinned s.cache key entry
  let after := enforceCapacity policy { s with cache := made.2 }
  { state := after.state
    displaced := made.1 ++ after.displaced
    reported := (if policy.volatile then made.1.map fun x => x.1.key else []) ++ after.reported
    inserted := true
    enforced := after.enforced }

/-- What the store below acquires: each answer is a resource handle of its own. -/
inductive Acquired where
  | pending
  | ready (cell : Cell)
  | joined (cell : Cell)

def Acquired.cell : Acquired → Cell
  | .pending => { status := .active, len := none }
  | .ready cell => cell
  | .joined cell => cell

variable (ι χ) in
inductive Action where
  /-- `reactivates` and `inner` say how the calls below end, if they are made. -/
  | acquire (key : CacheKey ι χ) (reactivates : Bool) (inner : Option Acquired)
  | open (key : CacheKey ι χ) (inner : Option Cell)
  | commit (token : ℕ) (finalLen len : Option ℕ)
  | commitFails (token : ℕ) (left : Cell)
  | fail (token : ℕ) (reason : String)
  | abandon (token : ℕ)
  | retain (key : ResourceKey)
  | release (key : ResourceKey)
  | reactivate (reader : CachedReader ι χ) (reactivates : Bool)
  | removeResource (key : ResourceKey)
  | deleteAsset (root : String)

def State.read (s : State ι χ) (key : CacheKey ι χ) (cell : ℕ) : State ι χ :=
  { s with readers := ⟨key, cell⟩ :: s.readers }

def State.allocate (s : State ι χ) (cell : Cell) : State ι χ :=
  { s with cells := Function.update s.cells s.cell cell, cell := s.cell + 1 }

def State.write (s : State ι χ) (key : CacheKey ι χ) (cell : ℕ) : State ι χ :=
  { s with
    writers := ⟨key, cell, s.token, false⟩ :: s.writers
    token := s.token + 1 }

/-- The writer is consumed, and leaves its resource so. -/
def State.finish (s : State ι χ) (token : ℕ) (change : Cell → Cell) : State ι χ :=
  match s.writers.find? fun w => w.token = token with
  | none => s
  | some w => { s with
      cells := Function.update s.cells w.cell (change (s.cells w.cell))
      writers := s.writers.filter fun other => other.token ≠ token }

/-- The entries and the live writers of the keys lose each other. -/
def State.forget (s : State ι χ) (gone : ResourceKey → Bool) : State ι χ :=
  { s with
    cache := s.cache.popAll ((s.cache.entries.map Prod.fst).filter fun k => gone k.key)
    writers := s.writers.map fun w => if gone w.key.key then { w with removed := true } else w }

def reopened : Cell := { status := .active, len := none }

def acquireResource (policy : CachePolicy) (s : State ι χ) (key : CacheKey ι χ)
    (reactivates : Bool) (inner : Option Acquired) : Outcome ι χ :=
  if key.key.isAbsolute then
    match inner with
    | none => .quiet s
    | some .pending => .quiet (((s.allocate Acquired.pending.cell).write key s.cell).read key s.cell)
    | some acq => .quiet ((s.allocate acq.cell).read key s.cell)
  else
    match s.cache.getMut key fun entry => { entry with hits := saturatingAdd entry.hits 1 } with
    | some (hit, cache) =>
      let used := { s with cache := cache }
      if isWriting s.writers hit || s.isCommitted hit then .quiet (used.read key hit.reader)
      else if reactivates then
        let entry := { hit with writer := some s.token }
        let written := ({ used with
          cache := (cache.push key entry).2
          cells := Function.update s.cells hit.reader reopened }.write key hit.reader)
        .quiet (written.read key hit.reader)
      else .quiet used
    | none =>
      match inner with
      | none => .quiet s
      | some .pending =>
        let written := ((s.allocate Acquired.pending.cell).write key s.cell).read key s.cell
        insertEntry policy written key { reader := s.cell, hits := 1, writer := some s.token }
      | some acq =>
        insertEntry policy ((s.allocate acq.cell).read key s.cell) key
          { reader := s.cell, hits := 1, writer := none }

def openResource (policy : CachePolicy) (s : State ι χ) (key : CacheKey ι χ)
    (inner : Option Cell) : Outcome ι χ :=
  if key.key.isAbsolute then
    match inner with
    | none => .quiet s
    | some cell => .quiet ((s.allocate cell).read key s.cell)
  else
    let dead := (s.cache.peek key).any s.isDead
    match if dead then none else s.cache.getMut key fun entry =>
        { entry with hits := saturatingAdd entry.hits 1 } with
    | some (hit, cache) => .quiet ({ s with cache := cache }.read key hit.reader)
    | none =>
      match if key.ctx.isNone then s.cache.entries.find? fun x =>
          decide (x.1.key = key.key) && s.isCommitted x.2 else none with
      | some x => .quiet (s.read key x.2.reader)
      | none =>
        match inner with
        | none => .quiet s
        | some cell =>
          let opened := (s.allocate cell).read key s.cell
          if dead then .quiet opened
          else insertEntry policy opened key { reader := s.cell, hits := 1, writer := none }

def step (policy : CachePolicy) (s : State ι χ) : Action ι χ → Outcome ι χ
  | .acquire key reactivates inner => acquireResource policy s key reactivates inner
  | .open key inner => openResource policy s key inner
  | .commit token finalLen len =>
    enforceCapacity policy (s.finish token fun _ => { status := .committed finalLen, len := len })
  | .commitFails token left => .quiet (s.finish token fun _ => left)
  | .fail token reason => .quiet (s.finish token fun cell => { cell with status := .failed reason })
  | .abandon token => .quiet (s.finish token id)
  | .retain key => .quiet { s with pinned := insert key s.pinned }
  | .release key => enforceCapacity policy { s with pinned := s.pinned.erase key }
  | .reactivate reader reactivates =>
    if reactivates then
      .quiet ({ s with cells := Function.update s.cells reader.cell reopened }.write reader.key
        reader.cell)
    else .quiet s
  | .removeResource key =>
    let forgotten := s.forget fun k => k = key
    .quiet { forgotten with pinned := forgotten.pinned.erase key }
  | .deleteAsset root => .quiet (s.forget fun k => k.assetRoot = some root)

/-- A writer is consumed by what finishes it, and a reader was handed out. -/
def Enabled (s : State ι χ) : Action ι χ → Prop
  | .commit token _ _ | .commitFails token _ | .fail token _ | .abandon token =>
    ∃ w ∈ s.writers, w.token = token
  | .reactivate reader _ => reader ∈ s.readers
  | _ => True

instance (s : State ι χ) (a : Action ι χ) : Decidable (Enabled s a) :=
  match a with
  | .commit token _ _ | .commitFails token _ | .fail token _ | .abandon token =>
    inferInstanceAs (Decidable (∃ w ∈ s.writers, w.token = token))
  | .reactivate reader _ => inferInstanceAs (Decidable (reader ∈ s.readers))
  | .acquire .. | .open .. | .retain _ | .release _ | .removeResource _ | .deleteAsset _ =>
    isTrue trivial

def start (policy : CachePolicy) : State ι χ where
  cache := Lru.new policy.capacity policy.positive
  pinned := ∅
  cells := fun _ => { status := .cancelled, len := none }
  writers := []
  readers := []
  cell := 0
  token := 0

def machine (policy : CachePolicy) : Machine (State ι χ) (Action ι χ) where
  Enabled := Enabled
  next := fun s a => (step policy s a).state

instance (policy : CachePolicy) (s : State ι χ) (a : Action ι χ) :
    Decidable ((machine policy).Enabled s a) := inferInstanceAs (Decidable (Enabled s a))

end HandleCache

import Kithara.FileResponses
import Kithara.PendingResources
import Kithara.StorageMemory

/-! The consumers of one remote file. They share a resource and elect one writer of it; each plans
its fetches from the gaps of the resource, its reader's cursor and the demand of all of them, and a
fetch writes, commits and fails through the epoch it was planned in. -/
namespace FileSession

open CheckedArithmetic FileResponses RangeResponses StorageMemory TransitionSystem
open PendingResources (SessionPhase WriterClaim)

def maxU64 : ℕ := 2 ^ 64 - 1

inductive ResourceStatus where
  | active
  | committed (finalLen : Option ℕ)
  | failed (reason : String)
  | cancelled
  deriving DecidableEq

def status (core : ResourceCore) : ResourceStatus :=
  match core.gate.failed with
  | some reason => .failed reason
  | none =>
    if core.gate.committed then .committed core.gate.finalLen
    else if core.cancelled then .cancelled else .active

def failWith (core : ResourceCore) (reason : String) : ResourceCore :=
  { core with gate := { core.gate with failed := some reason } }

def dropGuard (core : ResourceCore) : ResourceCore :=
  if core.cancelled ∨ core.gate.committed ∨ core.gate.failed.isSome then core
  else failWith core "active resource writer dropped without commit"

structure DemandEntry where
  readPos : ℕ
  requestedEnd : ℕ
  lookAhead : Option ℕ

def DemandEntry.watermark (e : DemandEntry) : ℕ :=
  max (e.lookAhead.elim maxU64 fun ahead => min (e.readPos + ahead) maxU64) e.requestedEnd

/-- The canonical writer is there as long as the phase is active. -/
structure Session where
  core : ResourceCore
  phase : SessionPhase
  entries : List ℕ
  writerClaim : Option WriterClaim
  /-- Claims made so far. -/
  claims : ℕ
  writerCancel : Bool
  /-- The index lists the session. -/
  listed : Bool

namespace Session

variable (s : Session)

def isCurrentWriter (claim : WriterClaim) : Bool :=
  s.phase = .active && s.writerClaim = some claim

def isCurrent (claim : WriterClaim) : Bool := s.listed && s.isCurrentWriter claim

def electWriter (consumer : ℕ) : Session × Option WriterClaim :=
  if s.writerCancel || s.phase ≠ .active || s.writerClaim.isSome then (s, none)
  else
    let claim : WriterClaim := ⟨s.claims, consumer⟩
    ({ s with writerClaim := some claim, claims := s.claims + 1 }, some claim)

def tryTakeWriter (consumer : ℕ) : Session × Option WriterClaim :=
  if s.listed && consumer ∈ s.entries then s.electWriter consumer else (s, none)

/-- What ends the session; the entry of the index goes when the resource is removed. -/
def finish (core : ResourceCore) (removed : Bool) : Session :=
  { s with
    core
    phase := if removed then .finishing else .cleanupFailed
    writerClaim := none
    writerCancel := true
    listed := !removed }

/-- No answer is a stale epoch; `stored` is the backend's part of the commit. -/
def commit (claim : WriterClaim) (finalLen : ℕ) (stored removed : Bool) : Session × Option Bool :=
  if s.isCurrent claim then
    match s.core.commit (some finalLen) with
    | .ok core =>
      if stored then
        ({ s with
            core, phase := .committed, writerClaim := none, writerCancel := true, listed := false },
          some true)
      else (s.finish (dropGuard s.core) removed, some false)
    | .error _ => (s.finish (dropGuard s.core) removed, some false)
  else (s, none)

def fail (claim : WriterClaim) (reason : String) (removed : Bool) : Session × Option Bool :=
  if s.isCurrent claim then (s.finish (failWith s.core reason) removed, some removed)
  else (s, none)

def relinquish (claim : WriterClaim) : Session :=
  if s.isCurrent claim then { s with writerClaim := none } else s

def writeAt (claim : WriterClaim) (offset : ℕ) (data : List UInt8) (granted : Bool) :
    Session × Option Bool :=
  if s.isCurrent claim then
    match s.core.writeAt offset data granted with
    | .ok core => ({ s with core }, some true)
    | .error _ => (s, some false)
  else (s, none)

/-- A consumer leaves, and its claim with it; the last one ends the session. -/
def dropLease (consumer : ℕ) (removed : Bool) : Session :=
  let s := { s with
    entries := s.entries.filter (· ≠ consumer)
    writerClaim := s.writerClaim.filter (·.consumer ≠ consumer) }
  if s.phase = .cleanupFailed ∨ s.listed = false ∨ s.entries ≠ [] then s
  else s.finish (dropGuard s.core) removed

end Session

structure FileCoord where
  position : ℕ
  totalBytes : Option ℕ

def FileCoord.setTotalBytes (c : FileCoord) (total : Option ℕ) : FileCoord :=
  { c with totalBytes := total.filter (· ≠ maxU64) }

structure Inflight where
  fetch : ℕ
  endExclusive : Option ℕ
  start : ℕ

/-- A consumer: its file's shared part, while that is alive, and its peer. -/
structure Consumer where
  coord : FileCoord
  entry : DemandEntry
  sourceCancel : Bool
  alive : Bool
  inflight : Option Inflight
  writer : Option WriterClaim

/-- What has arrived of a response: where its body goes on and ends in the resource, and whether
the transport knows its length. -/
structure Body where
  next : ℕ
  finish : ℕ
  sized : Bool

/-- A fetch whose completion has not settled, with what its callbacks share. -/
structure Fetch where
  id : ℕ
  owner : ℕ
  epoch : WriterClaim
  start : ℕ
  endExclusive : Option ℕ
  range : Option RangeSpec
  offset : ℕ
  invalidResponse : Bool
  cancelled : Bool
  body : Option Body
  /-- A write returned an error: the body is read no further. -/
  broken : Bool

structure FetchCompletion where
  endExclusive : Option ℕ
  error : Option NetError
  invalidResponse : Bool
  bytesWritten : ℕ
  resumeFrom : ℕ

def Fetch.completion (f : Fetch) (error : Option NetError) : FetchCompletion where
  endExclusive := f.endExclusive
  error := error
  invalidResponse := f.invalidResponse
  bytesWritten := f.offset - f.start
  resumeFrom := f.start

structure State where
  session : Session
  consumer : ℕ → Consumer
  attached : ℕ
  fetches : List Fetch
  nextFetch : ℕ

structure FetchPlan where
  endExclusive : Option ℕ
  epoch : WriterClaim
  start : ℕ

inductive PeerAction where
  | done
  | fetch (plan : FetchPlan)
  | pending

inductive Polled where
  | finished
  | issued
  | pending
  deriving DecidableEq

namespace State

variable (s : State)

def maxWatermark : ℕ :=
  (s.session.entries.map fun i => (s.consumer i).entry.watermark).foldr max 0

def update (i : ℕ) (c : Consumer) : State :=
  { s with consumer := Function.update s.consumer i c }

@[simp] theorem update_self (i : ℕ) (c : Consumer) : (s.update i c).consumer i = c := by
  simp only [update, Function.update_self]

theorem update_of_ne {i j : ℕ} (h : j ≠ i) (c : Consumer) :
    (s.update i c).consumer j = s.consumer j := by
  simp only [update, Function.update_of_ne h]

def setTotal (i : ℕ) (total : Option ℕ) : State :=
  s.update i { s.consumer i with coord := (s.consumer i).coord.setTotalBytes total }

def setWriter (i : ℕ) (writer : Option WriterClaim) : State :=
  s.update i { s.consumer i with writer }

def onFetch (id : ℕ) (f : Fetch → Fetch) : State :=
  { s with fetches := s.fetches.map fun fetch => if fetch.id = id then f fetch else fetch }

def observeCommitted (i : ℕ) : State × Bool :=
  match status s.session.core with
  | .committed finalLen => (s.setTotal i (finalLen.or s.session.core.len), true)
  | _ => (s, false)

def commitIfComplete (i : ℕ) (epoch : WriterClaim) (finalLen : ℕ) (stored removed : Bool) :
    State × Bool :=
  if (s.session.core.nextGap 0 finalLen).isSome then (s, false)
  else
    match s.session.commit epoch finalLen stored removed with
    | (session, some true) => (({ s with session }.observeCommitted i).1, true)
    | (session, _) => ({ s with session }, false)

def dropWriter (i : ℕ) : State :=
  match (s.consumer i).writer with
  | some claim => { s with session := s.session.relinquish claim }.setWriter i none
  | none => s

/-- A stale handle is dropped, and the role is taken where it is free. -/
def writerSnapshot (i : ℕ) : State × Option (WriterClaim × ℕ) :=
  match (s.consumer i).writer.filter s.session.isCurrentWriter with
  | some claim => (s, some (claim, s.maxWatermark))
  | none =>
    match s.session.tryTakeWriter i with
    | (session, some claim) =>
      ({ s with session }.setWriter i (some claim), some (claim, s.maxWatermark))
    | (session, none) => ({ s with session }.setWriter i none, none)

def nextGapFromCursor (core : ResourceCore) (cursor : Option ℕ) (upper : ℕ) : Option (ℕ × ℕ) :=
  (cursor.bind (core.nextGap · upper)).or (core.nextGap 0 upper)

def landedFrontier (core : ResourceCore) (start : ℕ) (endExclusive : Option ℕ) : ℕ :=
  let finish := endExclusive.getD maxU64
  (core.nextGap start finish).elim finish Prod.fst

def steeringCursor (coord : FileCoord) : Option ℕ :=
  coord.totalBytes.bind fun total => if coord.position < total then some coord.position else none

/-- The gap to fetch next, by the writer's epoch and the watermark. -/
def planned (coord : FileCoord) (epoch : WriterClaim) (watermark : ℕ) : Option FetchPlan :=
  let upper := coord.totalBytes.elim watermark (min · watermark)
  let gap := if coord.totalBytes = none ∧ 0 < upper then some (0, upper)
    else nextGapFromCursor s.session.core (steeringCursor coord) upper
  gap.map fun gap =>
    { endExclusive := if coord.totalBytes.isSome ∨ watermark ≠ maxU64 then some gap.2 else none
      epoch
      start := gap.1 }

def nextAction (i : ℕ) (stored removed : Bool) : State × PeerAction :=
  if (s.consumer i).sourceCancel || s.session.writerCancel then (s.dropWriter i, .done)
  else if (s.observeCommitted i).2 then ((s.observeCommitted i).1, .done)
  else if status s.session.core ≠ .active then (s, .done)
  else
    match s.writerSnapshot i with
    | (s, none) => (s, .pending)
    | (s, some (epoch, watermark)) =>
      match s.planned (s.consumer i).coord epoch watermark with
      | some plan => (s, .fetch plan)
      | none =>
        match (s.consumer i).coord.totalBytes with
        | none => (s, .pending)
        | some total =>
          match s.commitIfComplete i epoch total stored removed with
          | (s, true) => (s, .done)
          | (s, false) => (s, .pending)

def buildFetchCmd (i : ℕ) (plan : FetchPlan) : State :=
  { s.update i { s.consumer i with
      inflight := some ⟨s.nextFetch, plan.endExclusive, plan.start⟩ } with
    fetches := s.fetches ++ [{
      id := s.nextFetch
      owner := i
      epoch := plan.epoch
      start := plan.start
      endExclusive := plan.endExclusive
      range := fetchRange plan.start plan.endExclusive
      offset := plan.start
      invalidResponse := false
      cancelled := false
      body := none
      broken := false }]
    nextFetch := s.nextFetch + 1 }

/-- The running fetch is cancelled where the cursor stands in its span past the bytes it landed. -/
def parkOnRunningFetch (i : ℕ) : Option State :=
  (s.consumer i).inflight.map fun fetch =>
    let frontier := landedFrontier s.session.core fetch.start fetch.endExclusive
    let overtaken := ((steeringCursor (s.consumer i).coord).filter fun cursor =>
      fetch.endExclusive.all (cursor < ·)).any (frontier < ·)
    if overtaken then s.onFetch fetch.fetch fun f => { f with cancelled := true } else s

def pollNext (i budget : ℕ) (stored removed : Bool) : State × Polled :=
  if (s.consumer i).alive then
    match s.parkOnRunningFetch i with
    | some s => (s, .pending)
    | none =>
      if budget = 0 then (s, .pending)
      else
        match s.nextAction i stored removed with
        | (s, .pending) => (s, .pending)
        | (s, .done) => (s, .finished)
        | (s, .fetch plan) => (s.buildFetchCmd i plan, .issued)
  else (s, .finished)

def captureContentMetadata (i : ℕ) (headers : Headers) (resumeFrom : ℕ)
    (endExclusive : Option ℕ) : State × Bool :=
  let contract := responseContract headers resumeFrom endExclusive
  if contract.invalid then (s, false)
  else
    match (s.consumer i).coord.totalBytes, contract.total with
    | some previous, some current => (s, previous = current)
    | none, some current => (s.setTotal i (some current), true)
    | _, none => (s, true)

def onResponse (f : Fetch) (a : Served) : State :=
  let body : Body := ⟨a.first, a.finish, (contentLength a.response.headers).isSome⟩
  if s.session.isCurrent f.epoch then
    let (s, valid) :=
      if (s.consumer f.owner).alive then
        s.captureContentMetadata f.owner a.response.headers f.start f.endExclusive
      else (s, !(responseContract a.response.headers f.start f.endExclusive).invalid)
    s.onFetch f.id fun f => { f with body := some body, invalidResponse := !valid }
  else s.onFetch f.id fun f => { f with body := some body }

/-- A write to the resource; the flag tells that it returned an error. -/
def fetchWriterWrite (f : Fetch) (chunk : List UInt8) (granted : Bool) : State × Fetch :=
  if f.invalidResponse then (s, { f with broken := true })
  else
    match checkedAdd 64 f.offset chunk.length with
    | none => (s, { f with broken := true })
    | some finish =>
      match s.session.writeAt f.epoch f.offset chunk granted with
      | (session, some true) => ({ s with session }, { f with offset := finish })
      | (session, some false) => ({ s with session }, { f with broken := true })
      | (session, none) => ({ s with session }, { f with cancelled := true })

def onChunk (resource : List UInt8) (f : Fetch) (b : Body) (n : ℕ) (granted : Bool) : State :=
  let (s, f) := s.fetchWriterWrite f ((resource.drop b.next).take n) granted
  s.onFetch f.id fun _ => { f with body := some { b with next := b.next + n } }

def resolvedFinalLen (i : ℕ) (c : FetchCompletion) : Option ℕ :=
  (s.consumer i).coord.totalBytes.or <|
    if c.error.isNone ∧ c.resumeFrom = 0 ∧ c.endExclusive = none then
      checkedAdd 64 c.resumeFrom c.bytesWritten
    else none

def commitFetchIfComplete (i : ℕ) (epoch : WriterClaim) (c : FetchCompletion)
    (stored removed : Bool) : State × Bool :=
  if s.session.isCurrent epoch then
    match s.resolvedFinalLen i c with
    | none => (s, false)
    | some finalLen => s.commitIfComplete i epoch finalLen stored removed
  else (s, false)

def failCurrentEpoch (epoch : WriterClaim) (reason : String) (removed : Bool) : State :=
  { s with session := (s.session.fail epoch reason removed).1 }

/-- The error's own text, as a failure reports it, is `describe`. -/
def settleFetchError (describe : NetError → String) (epoch : WriterClaim) (c : FetchCompletion)
    (removed : Bool) : State × Bool :=
  match c.error with
  | none => (s, false)
  | some .cancelled => ({ s with session := s.session.relinquish epoch }, true)
  | some error =>
    if error.retryability = .fatal ∨ c.resumeFrom = 0 ∧ c.bytesWritten = 0 then
      (s.failCurrentEpoch epoch (describe error) removed, true)
    else (s, false)

def isCancelled : Option NetError → Bool
  | some .cancelled => true
  | _ => false

def finalizeFetch (describe : NetError → String) (i : ℕ) (epoch : WriterClaim)
    (c : FetchCompletion) (stored removed : Bool) : State :=
  let (s, committed) :=
    if !c.invalidResponse && isCancelled c.error then
      s.commitFetchIfComplete i epoch c stored removed
    else (s, false)
  if committed then s
  else
    let (s, settled) := s.settleFetchError describe epoch c removed
    if settled then s else (s.commitFetchIfComplete i epoch c stored removed).1

def completeFetch (describe : NetError → String) (i : ℕ) (epoch : WriterClaim)
    (c : FetchCompletion) (stored removed : Bool) : State :=
  if c.invalidResponse && !isCancelled c.error then
    s.failCurrentEpoch epoch
      s!"ranged response did not identify the requested interval at offset {c.resumeFrom}" removed
  else s.finalizeFetch describe i epoch c stored removed

def onComplete (describe : NetError → String) (f : Fetch) (error : Option NetError)
    (stored removed : Bool) : State :=
  let s := if (s.consumer f.owner).alive then
      s.completeFetch describe f.owner f.epoch (f.completion error) stored removed
    else s
  { s.update f.owner { s.consumer f.owner with inflight := none } with
    fetches := s.fetches.filter (·.id ≠ f.id) }

def attach (lookAhead : Option ℕ) : State :=
  let (session, writer) := { s.session with
    entries := s.session.entries ++ [s.attached] }.electWriter s.attached
  { { s with session }.update s.attached {
      coord := ⟨0, none⟩
      entry := ⟨0, 0, lookAhead⟩
      sourceCancel := false
      alive := true
      inflight := none
      writer } with
    attached := s.attached + 1 }

def fetch? (id : ℕ) : Option Fetch := s.fetches.find? (·.id = id)

end State

/-- The resource behind the consumers' address, and the text of an error. -/
structure Remote where
  resource : List UInt8
  url : String
  describe : NetError → String

inductive Action where
  | attach (lookAhead : Option ℕ)
  | pollNext (consumer budget : ℕ) (stored removed : Bool)
  | seek (consumer position : ℕ)
  | advance (consumer readPos : ℕ)
  | requestUntil (consumer finish : ℕ)
  | respond (fetch : ℕ) (served : Served)
  | chunk (fetch size : ℕ) (granted : Bool)
  | complete (fetch : ℕ) (error : Option NetError) (stored removed : Bool)
  | cancelSource (consumer : ℕ)
  | cancelSession
  /-- The consumer's source goes, and its lease with it. -/
  | dropSource (consumer : ℕ) (removed : Bool)
  /-- The peer goes, and its handle with it. -/
  | dropPeer (consumer : ℕ)

def start (capacity : ℕ) : State where
  session :=
    { core :=
        { available := .empty
          committed := false
          cancelled := false
          gate := { failed := none, finalLen := none, committed := false }
          driver := { committed := none, state := { buf := ensureLen [] capacity, len := 0 } } }
      phase := .active
      entries := []
      writerClaim := none
      claims := 0
      writerCancel := false
      listed := true }
  consumer _ := ⟨⟨0, none⟩, ⟨0, 0, none⟩, false, false, none, none⟩
  attached := 0
  fetches := []
  nextFetch := 0

variable (remote : Remote)

def next (s : State) : Action → State
  | .attach lookAhead => s.attach lookAhead
  | .pollNext i budget stored removed => (s.pollNext i budget stored removed).1
  | .seek i position =>
    s.update i { s.consumer i with coord := { (s.consumer i).coord with position } }
  | .advance i readPos =>
    s.update i { s.consumer i with entry := { (s.consumer i).entry with readPos } }
  | .requestUntil i finish =>
    let entry := (s.consumer i).entry
    s.update i { s.consumer i with
      entry := { entry with requestedEnd := max entry.requestedEnd finish } }
  | .respond id served => (s.fetch? id).elim s fun f => s.onResponse f served
  | .chunk id size granted => (s.fetch? id).elim s fun f => f.body.elim s fun b =>
    s.onChunk remote.resource f b size granted
  | .complete id error stored removed => (s.fetch? id).elim s fun f =>
    s.onComplete remote.describe f error stored removed
  | .cancelSource i => s.update i { s.consumer i with sourceCancel := true }
  | .cancelSession => { s with session := { s.session with writerCancel := true } }
  | .dropSource i removed =>
    { s.update i { s.consumer i with alive := false } with
      session := s.session.dropLease i removed }
  | .dropPeer i => s.dropWriter i

/-- The transport ends a body without an error where it is all there, or where nothing tells its
length. -/
def ends (error : Option NetError) (f : Fetch) : Bool :=
  error.isSome || !f.broken && f.body.any fun b => b.next = b.finish || !b.sized

def Enabled (s : State) : Action → Prop
  | .attach _ => s.session.listed = true ∧ s.session.phase = .active
  | .pollNext i _ _ _ | .seek i _ | .advance i _ | .requestUntil i _ | .cancelSource i
  | .dropPeer i => i < s.attached
  | .respond id served => (s.fetch? id).any (fun f =>
    f.body.isNone && served.accepted remote.url f.range && served.honest remote.resource) = true
  | .chunk id size _ => (s.fetch? id).any (fun f =>
    !f.broken && f.body.any fun b => b.next + size ≤ b.finish) = true
  | .complete id error _ _ => (s.fetch? id).any (ends error) = true
  | .cancelSession => True
  | .dropSource i _ => i < s.attached ∧ (s.consumer i).alive = true

def machine : Machine State Action where
  Enabled := Enabled remote
  next := next remote

instance (s : State) : (a : Action) → Decidable ((machine remote).Enabled s a)
  | .attach _ => inferInstanceAs (Decidable (s.session.listed = true ∧ s.session.phase = .active))
  | .pollNext i _ _ _ | .seek i _ | .advance i _ | .requestUntil i _ | .cancelSource i
  | .dropPeer i => inferInstanceAs (Decidable (i < s.attached))
  | .respond id served => inferInstanceAs (Decidable ((s.fetch? id).any (fun f =>
    f.body.isNone && served.accepted remote.url f.range && served.honest remote.resource) = true))
  | .chunk id size _ => inferInstanceAs (Decidable ((s.fetch? id).any (fun f =>
    !f.broken && f.body.any fun b => b.next + size ≤ b.finish) = true))
  | .complete id error _ _ => inferInstanceAs (Decidable ((s.fetch? id).any (ends error) = true))
  | .cancelSession => isTrue trivial
  | .dropSource i _ => inferInstanceAs (Decidable (i < s.attached ∧ (s.consumer i).alive = true))

end FileSession

import Kithara.QueueSlots

/-! The queue's track list: the records in queue order, their loading status, and the changes of it
that wait to be announced. A record keeps the load that runs for it, by the token that cancels it. -/
namespace QueueTracks

open Navigation (TrackId AdvanceReason RepeatMode PlaybackOrder)

inductive TrackStatus where
  | pending
  | loading
  | slow
  | loaded
  | failed (reason : String)
  | consumed
  | cancelled
  deriving DecidableEq, Repr

def TrackStatus.isFailed : TrackStatus → Bool
  | .failed _ => true
  | _ => false

abbrev F32 := UInt32

inductive CrossfadeCurve where
  | linear
  | equalPower
  deriving DecidableEq, Repr

structure CrossfadeSettings where
  curve : CrossfadeCurve
  depth : F32
  duration : F32
  position : F32
  deriving DecidableEq, Repr

inductive ActionAtItemEnd where
  | advance
  | pause
  | none
  deriving DecidableEq, Repr

inductive QueueEvent where
  | trackAdded (id : TrackId) (index : ℕ)
  | trackRemoved (id : TrackId)
  | trackStatusChanged (id : TrackId) (status : TrackStatus)
  | trackMetadataChanged (id : TrackId)
  | currentTrackChanged (id : Option TrackId)
  | currentTrackAdvance (id : Option TrackId) (reason : AdvanceReason)
  | queueEnded
  | trackLoadFailed (id : TrackId) (reason : String) (autoSkipped : Bool)
  | crossfadeSettingsChanged (settings : CrossfadeSettings)
  | playbackOrderChanged (order : PlaybackOrder)
  | actionAtItemEndChanged (action : ActionAtItemEnd)
  | repeatModeChanged (mode : RepeatMode)
  | nextTrackReady (id : TrackId) (index : ℕ)
  | upcomingChanged
  | crossfadeStarted (settings : CrossfadeSettings)
  deriving DecidableEq, Repr

variable (Source Position Token : Type)

structure TrackRecord where
  id : TrackId
  source : Source
  initialPosition : Position
  status : TrackStatus
  load : Option Token

structure Tracks where
  records : List (TrackRecord Source Position Token)
  events : List QueueEvent

variable {Source Position Token}

namespace Tracks

def find (t : Tracks Source Position Token) (id : TrackId) :
    Option (TrackRecord Source Position Token) :=
  t.records.find? fun record => record.id == id

def modify (t : Tracks Source Position Token) (id : TrackId)
    (change : TrackRecord Source Position Token → TrackRecord Source Position Token) :
    Tracks Source Position Token :=
  match t.records.findIdx? fun record => record.id == id with
  | none => t
  | some index => { t with records := t.records.modify index change }

/-- `Cancelled` also drops the load that runs; a status that differs is recorded for the queue to
announce. -/
def setStatus (t : Tracks Source Position Token) (id : TrackId) (status : TrackStatus) :
    Tracks Source Position Token :=
  match t.find id with
  | none => t
  | some record =>
    let t' := t.modify id fun record =>
      { record with
        status := status
        load := if status = .cancelled then none else record.load }
    if record.status = status then t'
    else { t' with events := t'.events ++ [.trackStatusChanged id status] }

def beginLoad (t : Tracks Source Position Token) (id : TrackId) (load : Token) :
    Tracks Source Position Token :=
  match t.find id with
  | none => t
  | some record =>
    let t' := t.modify id fun record => { record with load := some load }
    if record.status = .loading ∨ record.status = .slow then t' else t'.setStatus id .loading

/-- `cancelled` says which tokens are. A track that is loaded already, or whose load was cancelled,
answers `false`. -/
def loaded (t : Tracks Source Position Token) (id : TrackId) (cancelled : Token → Bool) :
    Tracks Source Position Token × Bool :=
  match t.find id with
  | none => (t, false)
  | some record =>
    if record.status = .loaded ∨ record.status = .consumed then (t, false)
    else if record.load.any cancelled then (t.setStatus id .cancelled, false)
    else ((t.modify id fun record => { record with load := none }).setStatus id .loaded, true)

def fail (t : Tracks Source Position Token) (id : TrackId) (reason : String) :
    Tracks Source Position Token :=
  (t.modify id fun record => { record with load := none }).setStatus id (.failed reason)

/-- Whether to ask again for a load that was refused; otherwise the track fails, unless its load was
cancelled or runs no longer. -/
def refused (t : Tracks Source Position Token) (id : TrackId) (reason : String)
    (asksAgain wanted : Bool) (cancelled : Token → Bool) : Tracks Source Position Token × Bool :=
  match t.find id with
  | none => (t, false)
  | some record =>
    if record.status ≠ .loading ∧ record.status ≠ .slow then (t, false)
    else if record.load.any cancelled then (t.setStatus id .cancelled, false)
    else if asksAgain && wanted then (t, true)
    else (t.fail id reason, false)

/-- What a task beside a load reports; `cancelled` says whether its token is. -/
inductive LoadReport where
  | slow (id : TrackId) (cancelled : Bool)
  | cover (id : TrackId) (cancelled : Bool)

def applyReport (t : Tracks Source Position Token) : LoadReport → Tracks Source Position Token
  | .slow id cancelled => if cancelled then t else t.setStatus id .slow
  | .cover id cancelled =>
    if cancelled then t
    else match t.find id with
      | none => t
      | some _ => { t with events := t.events ++ [.trackMetadataChanged id] }

def cancelLoads (t : Tracks Source Position Token) : Tracks Source Position Token :=
  ((t.records.filter fun record => record.load.isSome).map (·.id)).foldl
    (fun t id => t.setStatus id .cancelled) t

def hasStatus (t : Tracks Source Position Token) (id : TrackId) (pick : TrackStatus → Bool) : Bool :=
  t.records.any fun record => record.id == id && pick record.status

def failed (t : Tracks Source Position Token) (id : TrackId) : Bool :=
  t.hasStatus id (·.isFailed)

end Tracks

end QueueTracks

import Kithara.StatefulPrograms
import Kithara.QueueTracks
import Kithara.CommandProtocol

/-! A deck's queue: its state, what it is generic over, and the readings its methods share. The
queue is generic over the tracks its factory makes; those, the loader and the outbox its owner lends
for a pass are the world outside it. What the bus hears beyond the queue's own events and the
published rows are left out: no method reads them. -/
namespace DeckQueue

open Navigation (TrackId AdvanceReason RepeatMode PlaybackOrder NavigationState Rng)
open CommandProtocol (When)
open QueueSlots QueueTracks StatefulPrograms StatefulPrograms.Program

inductive DeckRefusal where
  | occupied (slot : Slot)
  | empty (slot : Slot)
  | outdated (slot : Slot)
  | deferral
  | axisRestarted
  deriving DecidableEq, Repr

/-- The errors the queue raises or tells apart; a player's own come with their text. -/
inductive PlayError where
  | closed
  | notReady
  | noActiveSlot
  | full (queue : String)
  | deck (refusal : DeckRefusal)
  | itemConsumed (item : TrackId)
  | eqBandOutOfRange (band bands : ℕ)
  | itemFailed (reason : String)
  | invalidParameter (name : String) (value : F32)
  | late
  | untimed
  | invalidConfiguration (reason : String)
  | internal (reason : String)
  | other (text : String)
  deriving DecidableEq, Repr

inductive QueueError where
  | invalidUrl (text : String)
  | unknownTrackId (id : TrackId)
  | notReady (id : TrackId)
  | play (error : PlayError)
  | resource (text : String)
  | noRuntime
  deriving DecidableEq, Repr

inductive Rejection (ρ : Type) where
  | late
  | stale
  | unanswered
  | refused (reason : ρ)
  deriving DecidableEq, Repr

def Rejection.map {ρ ρ' : Type} (f : ρ → ρ') : Rejection ρ → Rejection ρ'
  | .late => .late
  | .stale => .stale
  | .unanswered => .unanswered
  | .refused reason => .refused (f reason)

inductive Settled where
  | pending
  | applied (seq : Seq) (moment : SessionFrame)
  | rejected (seq : Seq) (reason : Rejection PlayError)
  deriving DecidableEq, Repr

def Settled.seq : Settled → Option Seq
  | .pending => none
  | .applied seq _ => some seq
  | .rejected seq _ => some seq

inductive Bound where
  | atOrAfter (frame : SessionFrame)
  | atOrBefore (frame : SessionFrame)
  deriving DecidableEq, Repr

inductive FadeDir where
  | inward
  | outward
  deriving DecidableEq, Repr

/-- Where a track stands, as the receipts of its executors left it. -/
inductive PlayingStatus (Position : Type) where
  | idle
  | loading
  | loaded
  | playing (since : SessionFrame)
  | paused (position : Position)
  | faded (moment : SessionFrame)
  | ended (moment : SessionFrame)
  | failed (moment : SessionFrame) (fault : String)
  | released
  deriving DecidableEq

namespace PlayingStatus

variable {Position : Type}

def isPlaying : PlayingStatus Position → Bool
  | .playing _ => true
  | _ => false

def isPaused : PlayingStatus Position → Bool
  | .paused _ => true
  | _ => false

def isReleased : PlayingStatus Position → Bool
  | .released => true
  | _ => false

/-- Loaded, paused, playing or faded: a transition may enter it. -/
def isReady : PlayingStatus Position → Bool
  | .loaded | .paused _ | .playing _ | .faded _ => true
  | _ => false

def endedAt (moment : SessionFrame) : PlayingStatus Position → Bool
  | .ended frame => frame == moment
  | _ => false

def failedAt (moment : SessionFrame) (fault : String) : PlayingStatus Position → Bool
  | .failed frame actual => frame == moment && actual == fault
  | _ => false

end PlayingStatus

structure TrackSnapshot (Position : Type) where
  item : TrackId
  status : PlayingStatus Position
  attached : Bool
  laneRoom : ℕ
  segment : Option ℕ
  position : Position
  duration : Option ℕ

inductive DeckPart where
  | start (slot : Slot)
  | chain (origin target : Slot)
  | fade (slot : Slot) (dir : FadeDir)
  | adopt (slot : Slot) (segment : ℕ)
  | returnedPcm (slot : Slot)
  | other
  deriving DecidableEq, Repr

structure Batch where
  basis : List (Slot × Option Seq)
  commands : List DeckPart
  deriving DecidableEq, Repr

def Batch.names (batch : Batch) (slot : Slot) : Bool := batch.basis.any fun named => named.1 == slot

def Batch.starts (batch : Batch) (slot : Slot) : Bool :=
  batch.commands.any fun
    | .start named => named == slot
    | .chain _ named => named == slot
    | .fade named .inward => named == slot
    | _ => false

def Batch.returns (batch : Batch) (slot : Slot) : Bool :=
  batch.commands.any fun
    | .returnedPcm named => named == slot
    | _ => false

def Batch.adopted (batch : Batch) (slot : Slot) : Option ℕ :=
  batch.commands.findSome? fun
    | .adopt named segment => if named = slot then some segment else none
    | _ => none

inductive DeckOutcome where
  | applied (moment : SessionFrame)
  | rejected (reason : Rejection DeckRefusal)
  deriving DecidableEq, Repr

/-- Why a source did not open: by a cancel, or with a text and whether a later ask can answer. -/
inductive LoadRefusal where
  | cancelled
  | refused (text : String) (asksAgain : Bool)
  deriving DecidableEq, Repr

inductive LoadOutcome where
  | applied
  | rejected (reason : Rejection LoadRefusal)
  deriving DecidableEq, Repr

def LoadOutcome.isApplied : LoadOutcome → Bool
  | .applied => true
  | .rejected _ => false

inductive DeckEvent where
  | ended (slot : Slot) (moment : SessionFrame)
  | failed (slot : Slot) (moment : SessionFrame) (fault : String)
  | faded (slot : Slot) (moment : SessionFrame)
  | underrunStarted (slot : Slot) (item : TrackId)
  | underrunEnded (slot : Slot) (item : TrackId)
  deriving DecidableEq, Repr

def DeckEvent.slot : DeckEvent → Slot
  | .ended slot _ | .failed slot _ _ | .faded slot _ | .underrunStarted slot _
  | .underrunEnded slot _ => slot

inductive SeekBatch where
  | deck (seq : Seq)
  | lane (seq : Seq)
  deriving DecidableEq, Repr

def SeekBatch.seq : SeekBatch → Seq
  | .deck seq => seq
  | .lane seq => seq

structure Payloads where
  Track : Type
  Out : Type
  Source : Type
  Position : Type
  Token : Type
  Item : Type
  Output : Type
  Settings : Type
  Change : Type
  GainProgram : Type
  MixerChange : Type

inductive TrackCommand (P : Payloads) where
  | gainProgram (program : P.GainProgram)
  | load (item : P.Item) (position : P.Position)
  | play (at' : When SessionFrame)
  | pause (at' : When SessionFrame)
  | seek (position : P.Position)
  | configure (change : P.Change) (at' : When SessionFrame)
  | setHostRate (rate : ℕ)
  | fade (at' : When SessionFrame) (settings : CrossfadeSettings) (dir : FadeDir)
  | playAfter (slot : Slot)
  | supersede
  | release
  | seat (slot : Slot) (at' : When SessionFrame)

/-- What a queue is generic over and what lies outside it: the tracks, the factory and the loader,
and the outbox. Whatever they do, they answer and leave a new track and a new outside. -/
structure World extends Payloads where
  snapshot : Track → TrackSnapshot Position
  apply : Track → TrackCommand toPayloads → Out → Except PlayError (Option Seq) × Track × Out
  settleDeck : Track → Seq → DeckOutcome → Batch → Out → Settled × Track × Batch × Out
  settleEvent : Track → DeckEvent → Out → Settled × Track × Out
  settleLoaded : Track → Seq → LoadOutcome → Out → Settled × Track × Out
  tickTrack : Track → SessionFrame → Out → Track × Out
  seek : Track → Position → Out → Except PlayError (Option SeekBatch) × Track × Out
  seekApplied : Track → Seq → Bool × Track
  admission : Track → Change → When SessionFrame → Out → Except PlayError (Option ℕ) × Track
  prepareEntry : Track → SessionFrame → Out → Except PlayError Bool × Track × Out
  finishGroup : Track → Option Seq → Out → Track × Out
  entry : Track → Bound → Option SessionFrame
  plannedEnd : Track → ℕ → Option SessionFrame
  projected : Track → Settings
  makeTrack : TrackId → Option Slot → Settings → Out → Except PlayError Track × Out
  startLoad : Option (TrackId → Source → Output → Out → Except QueueError (Item × Token) × Out)
  cancelled : Out → Token → Bool
  deckAvailable : Out → ℕ
  dispatcherAvailable : Out → ℕ
  pass : Out → Option (SessionFrame × ℕ)
  openGroup : When SessionFrame → Out → Except PlayError Unit × Out
  closeGroup : Out → Except PlayError (Option Seq) × Out
  dropGroup : Out → Out
  send : MixerChange → Out → Except PlayError (Option Seq) × Out
  outputRate : Output → ℕ
  applyChange : Settings → Change → Settings
  checkChange : Change → Except PlayError Change
  isSpeed : Change → Bool
  validate : CrossfadeSettings → Except PlayError CrossfadeSettings
  nanos : F32 → Option ℕ
  louder : Out → Slot → Slot → Ordering
  zeroPosition : Position
  describe : QueueError → String
  rng : Rng

variable (W : World)

inductive SeekPosition where
  | held (position : W.Position)
  | pending (item : TrackId) (sent : SeekBatch) (position : W.Position) (segment : Option ℕ)

inductive Transition where
  | none
  | crossfade
  | crossfadeWith (settings : CrossfadeSettings)
  deriving DecidableEq, Repr

def Transition.settings (default : CrossfadeSettings) : Transition → CrossfadeSettings
  | .none => { default with duration := 0 }
  | .crossfade => default
  | .crossfadeWith settings => settings

/-- The submitted entry keeps its original item when a new target replaces it. -/
structure PendingHandover where
  seq : Seq
  item : TrackId
  slot : Slot
  replacement : Bool
  reason : AdvanceReason
  deriving DecidableEq, Repr

inductive Continuation where
  | load (seq : Seq)
  | entry (seq : Seq)
  | pause (seq : Seq)
  | removal (seq handover : Seq) (slot : Slot) (applied : Bool)
  deriving DecidableEq, Repr

def Continuation.seq : Continuation → Seq
  | .load seq | .entry seq | .pause seq | .removal seq _ _ _ => seq

def Continuation.isRemoval : Continuation → Bool
  | .removal _ _ _ _ => true
  | _ => false

structure Target where
  item : TrackId
  bound : Option Bound
  settings : CrossfadeSettings
  transition : Transition
  reason : AdvanceReason
  playing : Bool
  auto : Bool
  stale : Option Seq
  continued : Option Continuation
  repeated : Option Seq
  chained : Bool
  deriving DecidableEq, Repr

def Target.setPlaying (target : Target) (playing : Bool) : Target :=
  { target with
    continued := if target.playing ≠ playing ∧ target.continued.any (·.isRemoval) = false
      then none else target.continued
    playing := playing }

structure Config where
  slots : ℕ
  crossfade : CrossfadeSettings
  gapless : Bool
  track : W.Settings
  actionAtItemEnd : ActionAtItemEnd
  playbackOrder : PlaybackOrder
  preloadLead : ℕ
  maxConcurrentLoads : ℕ
  shouldAutoplay : Bool
  maxHistorySize : ℕ

/-- A deck whose track list, navigation and active tracks have one owner. `out` is what its owner
lends for the pass that runs. -/
structure Queue where
  config : Config W
  tracks : Tracks W.Source W.Position W.Token
  navigation : NavigationState
  current : Option TrackId
  heldPosition : Option (SeekPosition W)
  target : Option Target
  pendingHandover : Option PendingHandover
  active : Slots W.Track
  shutdown : Bool
  events : List QueueEvent
  published : List QueueEvent
  upcoming : Option TrackId
  clock : Option (SessionFrame × ℕ)
  sampleRate : ℕ
  overflows : ℕ
  out : W.Out

variable {W}

/-- A method of the queue: it answers or fails, and leaves the queue as far as it came. -/
abbrev Run (W : World) (ε α : Type) := Program (Queue W) ε α

def playError (describe : QueueError → String) : QueueError → PlayError
  | .play error => error
  | .unknownTrackId item => .itemConsumed item
  | .notReady _ => .notReady
  | error => .itemFailed (describe error)

def asQueue {α : Type} (p : Run W PlayError α) : Run W QueueError α := p.mapError .play

def asPlay {α : Type} (p : Run W QueueError α) : Run W PlayError α :=
  p.mapError (playError W.describe)

/-- Session frames saturate at the ends of their 64 bits. -/
def addFrames (frame : SessionFrame) (count : ℕ) : SessionFrame := min (frame + count) (2 ^ 63 - 1)

def subFrames (frame : SessionFrame) (count : ℕ) : SessionFrame := max (frame - count) (-2 ^ 63)

/-- Float comparisons with zero, on the bits: both zeros are zero, a NaN is not positive. -/
def isZero (x : F32) : Bool := x == 0 || x == 0x80000000

def isPositive (x : F32) : Bool := 0 < x && x ≤ 0x7f800000

/-- A result the method looks at instead of passing its error on. -/
def attemptPlay {ε α : Type} (p : Run W ε α) : Run W PlayError (Except ε α) := attempt p

def attemptQueue {ε α : Type} (p : Run W ε α) : Run W QueueError (Except ε α) := attempt p

namespace Queue

def statusOf (active : Active W.Track) : PlayingStatus W.Position :=
  (W.snapshot active.track).status

def statusAt (q : Queue W) (index : ℕ) : Option (PlayingStatus W.Position) :=
  (q.active.get index).map statusOf

def activeCurrentIndex (q : Queue W) : Option ℕ := q.active.position fun active =>
  active.role == .current

def incomingIndex (q : Queue W) (id : TrackId) : Option ℕ := q.active.position fun active =>
  active.item == id && active.role == .incoming

/-- The active track the view shows: the current one, else the incoming target. -/
def shownIndex (q : Queue W) : Option ℕ :=
  q.activeCurrentIndex.or (q.target.bind fun target => q.incomingIndex target.item)

def earliestFrame (q : Queue W) : Option SessionFrame :=
  q.clock.map fun clock => addFrames clock.1 clock.2

def trackIds (q : Queue W) : List TrackId := q.tracks.records.map (·.id)

def navigationCursor (q : Queue W) : Option TrackId := (q.target.map (·.item)).or q.current

def selectableIds (q : Queue W) : List TrackId :=
  (q.tracks.records.filter fun record =>
    q.current == some record.id || q.navigationCursor == some record.id ||
      !(record.status == .cancelled || record.status.isFailed)).map (·.id)

def currentIndex (q : Queue W) : Option ℕ :=
  q.current.bind fun id => q.tracks.records.findIdx? fun record => record.id == id

/-- The sounding track, chosen only when its transition applies. -/
def currentTrack (q : Queue W) : Option W.Track :=
  (q.active.entries.find? fun active => active.role == .current &&
    match statusOf active with
    | .ended _ | .failed _ _ | .released => false
    | _ => true).map (·.track)

/-- Records the tracks' earlier changes before the owner's next event. -/
def announce (q : Queue W) (event : QueueEvent) : Queue W :=
  { q with
    events := q.events ++ q.tracks.events ++ [event]
    tracks := { q.tracks with events := [] } }

def setStatus (q : Queue W) (id : TrackId) (status : TrackStatus) : Queue W :=
  { q with tracks := q.tracks.setStatus id status }

def failTrack (q : Queue W) (id : TrackId) (error : QueueError) : Queue W :=
  { q with tracks := q.tracks.fail id (W.describe error) }

def setRole (q : Queue W) (index : ℕ) (role : Role) : Queue W :=
  { q with active := q.active.modify index ({ · with role := role }) }

def setTarget (q : Queue W) (change : Target → Target) : Queue W :=
  { q with target := q.target.map change }

end Queue

def applyAt (index : ℕ) (command : TrackCommand W.toPayloads) : Run W PlayError (Option Seq) :=
  fun q => match q.active.get index with
    | none => (.error .noActiveSlot, q)
    | some active =>
      let (answer, track, out) := W.apply active.track command q.out
      (answer, { q with
        active := q.active.modify index ({ · with track := track })
        out := out })

def earliest : Run W PlayError SessionFrame := do
  require .untimed (← read (·.earliestFrame))

end DeckQueue

import Kithara.QueueTransitions

/-! Loads of a deck's queue: a track opens in a free slot, in the background, or staged behind a
victim; a requested target loads and enters; the end of the current track arms the next one. -/
namespace DeckQueue

open Navigation (TrackId AdvanceReason RepeatMode PlaybackOrder)
open CommandProtocol (When)
open QueueSlots QueueTracks StatefulPrograms StatefulPrograms.Program

variable {W : World}

def outside {ε α : Type} (f : W.Out → Except ε α × W.Out) : Run W ε α := fun q =>
  ((f q.out).1, { q with out := (f q.out).2 })

def applyTo (track : W.Track) (command : TrackCommand W.toPayloads) :
    Run W PlayError (W.Track × Except PlayError (Option Seq)) := fun q =>
  let (answer, track, out) := W.apply track command q.out
  (.ok (track, answer), { q with out := out })

/-- What the loader needs of the track's record and of the queue. -/
def startLoader (id : TrackId) (source : W.Source) (output : Option W.Output)
    (missing : PlayError) : Run W QueueError (W.Item × W.Token) := do
  match W.startLoad with
  | none => fail (.play missing)
  | some start =>
    let output ← asQueue (require .notReady output)
    outside (start id source output)

def openTrack (id : TrackId) (slot : Option Slot) (held : Option W.Position)
    (output : Option W.Output) : Run W QueueError (W.Track × Option Seq) := do
  if ← read fun q => decide (W.dispatcherAvailable q.out = 0) then fail (.play (.full "dispatcher"))
  else
    let record ← require (.unknownTrackId id) (← read (·.tracks.find id))
    let settings ← read fun q => (q.currentTrack.map W.projected).getD q.config.track
    let track ← asQueue (outside (W.makeTrack id slot settings))
    let (item, token) ← startLoader id record.source output
      (.invalidConfiguration "a hosted queue requires resource preparation")
    let (track, answer) ← asQueue (applyTo track
      (.load item (held.getD record.initialPosition)))
    match answer with
    | .error e => fail (.play e)
    | .ok seq =>
      update fun q => { q with tracks := q.tracks.beginLoad id token }
      return (track, seq)

def heldSeek (q : Queue W) : Option W.Position :=
  match q.heldPosition with
  | some (.held position) => some position
  | _ => none

def takeHeld (q : Queue W) : Queue W :=
  match q.heldPosition with
  | some (.held _) => { q with heldPosition := none }
  | _ => q

def parkRefused {α : Type} (parked : Parked W.Track) (error : PlayError) : Run W QueueError α := do
  let (track, _) ← asQueue (applyTo parked.track .release)
  update fun q => { q with active := q.active.park { parked with track := track } }
  fail (.play error)

/-- A background track seeks where the queue holds a position for it. -/
def seekParked (parked : Parked W.Track) : Run W QueueError (Parked W.Track) := do
  match ← read heldSeek with
  | none => return parked
  | some position =>
    let (track, answer) ← asQueue (applyTo parked.track (.seek position))
    match answer with
    | .error e => parkRefused { parked with track := track } e
    | .ok _ =>
      update ({ · with heldPosition := none })
      return { parked with track := track }

def seatParked (parked : Parked W.Track) (slot : Slot) : Run W QueueError (Parked W.Track) := do
  let parked ← seekParked parked
  let (track, answer) ← asQueue (applyTo parked.track (.seat slot .next))
  match answer with
  | .error e => parkRefused { parked with track := track } e
  | .ok _ => return { parked with track := track }

/-- The track and the load of a new entry: of the background track taken, or of a fresh open. -/
def openFresh (id : TrackId) (slot : Option Slot) (output : Option W.Output) :
    Run W QueueError (W.Track × Option LoadState) := do
  let held ← read heldSeek
  let (track, seq) ← openTrack id slot held output
  update takeHeld
  return (track, seq.map .opening)

/-- A replacement that waits is let go before another one is staged. -/
def dropReplacement : Option ℕ → Run W QueueError Unit
  | none => return ()
  | some index => do
    let _ ← asQueue (releaseTrack index)
    update (·.reapReleased)

def stagingSlot (id : TrackId) : Run W QueueError Slot := do
  dropReplacement (← read (·.active.replacementIndex))
  let victim ← require (.play (.invalidConfiguration "a mixer must have at least one slot"))
    (← read fun q => q.active.quietest (W.louder q.out))
  let active ← require (.notReady id) (← read (·.active.get victim))
  return active.slot

def parkBack (taken : Option (Parked W.Track)) (q : Queue W) : Queue W :=
  match taken with
  | none => q
  | some parked => { q with active := q.active.park parked }

def stagedTrack (id : TrackId) (output : Option W.Output) :
    Option (Parked W.Track) → Run W QueueError (W.Track × Option LoadState)
  | some parked => do
    let parked ← seekParked parked
    return (parked.track, parked.load)
  | none => openFresh id none output

def evictFor (id : TrackId) (role : Role) (taken : Option (Parked W.Track))
    (output : Option W.Output) : Run W QueueError (Option Seq) := do
  match ← attemptQueue (stagingSlot id) with
  | .error e =>
    update (parkBack taken)
    fail e
  | .ok slot =>
    let (track, load) ← stagedTrack id output taken
    update fun q => { q with active := q.active.stage ⟨id, slot, track, role, load⟩ }
    return load.map (·.seq)

def Queue.reusable (q : Queue W) (id : TrackId) : Option ℕ :=
  let reusableCurrent := q.pendingHandover.isSome && q.current == some id &&
    q.target.any fun target => !target.auto && target.item == id
  q.active.position fun active => active.item == id &&
    (active.role == .incoming || active.role == .preloaded ||
      (reusableCurrent && active.role == .current && (statusOf active).isReady))

def Queue.parkedIndex (q : Queue W) (id : TrackId) : Option ℕ :=
  q.active.parkedPosition fun parked =>
    parked.item == id && !(W.snapshot parked.track).status.isReleased

def seatedTrack (id : TrackId) (slot : Slot) (output : Option W.Output) :
    Option (Parked W.Track) → Run W QueueError (W.Track × Option LoadState)
  | some parked => do
    let parked ← seatParked parked slot
    return (parked.track, parked.load)
  | none => openFresh id (some slot) output

def seatTrack (id : TrackId) (role : Role) (slot : Slot) (taken : Option (Parked W.Track))
    (output : Option W.Output) : Run W QueueError (Option Seq) := do
  let (track, load) ← seatedTrack id slot output taken
  update fun q => { q with active := q.active.push ⟨id, slot, track, role, load⟩ }
  return load.map (·.seq)

def loadTrack (id : TrackId) (role : Role) (output : Option W.Output) :
    Run W QueueError (Option Seq) := do
  match ← read (·.reusable id) with
  | some index =>
    let active ← require (.notReady id) (← read (·.active.get index))
    update fun q => if active.role = .current then q else q.setRole index role
    return active.load.map (·.seq)
  | none =>
    update fun q => if q.tracks.hasStatus id (· == .consumed) then q.setStatus id .pending else q
    if ← read fun q => decide (W.deckAvailable q.out = 0) then fail (.play (.full "deck"))
    else
      let index ← read (·.parkedIndex id)
      let taken ← read fun q => index.bind fun index => q.active.parked[index]?
      update fun q => match index with
        | none => q
        | some index => { q with active := q.active.takeParked index }
      match ← read (·.active.freeSlot) with
      | none => evictFor id role taken output
      | some slot => seatTrack id role slot taken output

structure TransitionRequest where
  id : TrackId
  transition : Transition
  reason : AdvanceReason
  auto : Bool
  playing : Bool

def dropPreloaded (id : TrackId) : Run W QueueError Unit := do
  let others ← read fun q => q.active.indices fun active =>
    active.item != id && active.role == .preloaded && active.load.isNone
  forEach (fun index => do
    let active ← asQueue (require .noActiveSlot (← read (·.active.get index)))
    let _ ← asQueue (releaseTrack index)
    update (·.setStatus active.item .consumed)) others
  update (·.reapReleased)

def beginTransition (request : TransitionRequest) (settings : CrossfadeSettings)
    (bound : Option Bound) (output : Option W.Output) : Run W QueueError (Option Seq) := do
  cancelTarget
  whenever (request.auto = false) (dropPreloaded request.id)
  update ({ · with target := some ⟨request.id, bound, settings, request.transition, request.reason,
    request.playing, request.auto, none, none, none, false⟩ })
  match ← attemptQueue (loadTrack request.id .incoming output) with
  | .error e =>
    update fun q => { q with target := none }.failTrack request.id e
    fail e
  | .ok load =>
    match ← attemptQueue transitionLoaded with
    | .ok sent => return sent.or load
    | .error e =>
      cancelTarget
      fail (.play e)

def retargetRequest (request : TransitionRequest) (settings : CrossfadeSettings) :
    Run W QueueError (Option Seq) := do
  let _ ← asQueue (require .notReady (← read (·.target)))
  update (·.setTarget fun target => { target.setPlaying request.playing with
    settings := settings
    transition := request.transition
    reason := request.reason })
  let load ← read fun q => ((q.incomingIndex request.id).bind q.active.get).bind (·.load)
  let sent ← asQueue transitionLoaded
  return sent.or (load.map (·.seq))

def transport (command : TrackCommand W.toPayloads) : Run W PlayError (Option Seq) := do
  let index ← require .noActiveSlot (← read (·.activeCurrentIndex))
  applyAt index command

/-- The current track only plays on, unless a handover is pending that this request supersedes. -/
def Queue.playsOn (q : Queue W) (request : TransitionRequest) : Bool :=
  !request.auto && !q.tracks.failed request.id && q.current == some request.id &&
    q.pendingHandover.all fun pending => request.reason == .userSelect &&
      q.target.any fun target => target.auto && target.chained && target.reason == .naturalEof &&
        target.item == pending.item

def requestTransition (request : TransitionRequest) (output : Option W.Output) :
    Run W QueueError (Option Seq) := do
  let crossfade ← read (·.config.crossfade)
  let settings ← asQueue (ofExcept (W.validate (request.transition.settings crossfade)))
  if ← read (·.playsOn request) then
    let requested ← read fun q => q.target.any fun target => !target.auto
    whenever requested cancelTarget
    asQueue (transport (.play .next))
  else if ← read fun q => !request.auto && !q.tracks.failed request.id &&
      q.target.any fun target => target.item == request.id && !target.auto then
    retargetRequest request settings
  else if request.auto ∧ request.reason = .naturalEof then
    beginTransition request settings (← asQueue (autoBound settings)) output
  else
    beginTransition request settings (some (.atOrAfter (← asQueue earliest))) output

def drawNext (cursor : Queue W → Option TrackId) (allowRepeatOne : Bool) :
    Run W QueueError (Option TrackId) := fun q =>
  let (navigation, id) := q.navigation.next W.rng q.selectableIds (cursor q) allowRepeatOne
    (q.navigation.repeatMode == .all)
  (.ok id, { q with navigation := navigation })

def nextTarget (transition : Transition) (reason : AdvanceReason) (auto playing : Bool)
    (output : Option W.Output) : Run W QueueError (Option Seq) := do
  match ← drawNext (·.navigationCursor) (auto && reason != .trackFailed) with
  | none =>
    update fun q => if auto then q.announce .queueEnded else q
    return none
  | some id => requestTransition ⟨id, transition, reason, auto, playing⟩ output

def armInitialLoad (output : Option W.Output) : Run W QueueError Unit := do
  if ← read fun q => q.clock.isNone || output.isNone || q.current.isSome || q.target.isSome ||
      q.active.entries.any (·.role == .current) then return ()
  else
    let autoplay ← read (·.config.shouldAutoplay)
    let _ ← attemptQueue (nextTarget .none .initialLoad false autoplay output)
    return ()

/-- Dispatcher batches a background load leaves free in one pass. -/
def selectDispatchReserve : ℕ := 3

def Queue.mayPark (q : Queue W) : Bool :=
  q.active.parked.length < q.config.maxConcurrentLoads &&
    selectDispatchReserve < W.dispatcherAvailable q.out

def pumpLoad (output : Option W.Output) : Run W QueueError Bool := do
  if ← read (·.mayPark) then
    match ← read fun q => q.tracks.records.find? (·.status == .pending) with
    | none => return false
    | some record =>
      match ← attemptQueue (openTrack record.id none none output) with
      | .ok (track, load) =>
        update fun q => { q with
          active := q.active.park ⟨record.id, track, load.map .opening⟩ }
        return true
      | .error (.play (.full _)) | .error (.play .closed) => return false
      | .error e =>
        update fun q => (q.failTrack record.id e).announce
          (.trackLoadFailed record.id (W.describe e) false)
        return true
  else return false

/-- A round parks a track or ends the wait of a record that could not open, so as many rounds as
there are records and background places are enough, unless two records share an identity. -/
def pumpRounds (output : Option W.Output) : ℕ → Run W QueueError Unit
  | 0 => return ()
  | rounds + 1 => do
    if ← pumpLoad output then pumpRounds output rounds else return ()

def pumpLoads (output : Option W.Output) : Run W QueueError Unit := do
  if ← read (·.shutdown) then return ()
  else if output.isNone then return ()
  else
    let rounds ← read fun q => q.tracks.records.length + q.config.maxConcurrentLoads
    pumpRounds output rounds

end DeckQueue

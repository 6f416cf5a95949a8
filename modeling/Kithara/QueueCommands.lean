import Kithara.QueueSettlement
import Kithara.TransitionSystem

/-! The commands of a deck's queue, and the queue as a machine: its owner lends an outside for each
pass and calls it with a command, a receipt or a tick, in any order. -/
namespace DeckQueue

open Navigation (TrackId AdvanceReason RepeatMode PlaybackOrder NavigationState)
open CommandProtocol (When)
open QueueSlots QueueTracks StatefulPrograms StatefulPrograms.Program

variable {W : World}

inductive Placement where
  | append
  | inFront (index : ℕ)

def Queue.insertEntry (q : Queue W) (id : TrackId) (source : W.Source) (position : W.Position)
    (placement : Placement) : Queue W :=
  let record : TrackRecord W.Source W.Position W.Token := ⟨id, source, position, .pending, none⟩
  let index := match placement with
    | .append => q.tracks.records.length
    | .inFront index => index
  let q := { q with
    tracks := { q.tracks with records := q.tracks.records.insertIdx index record }
    navigation := q.navigation.insert W.rng id q.current }
  q.announce (.trackAdded id index)

/-- The neighbour that takes a removed item's place: the next record, else the one before. -/
def Queue.neighbour (q : Queue W) (index : ℕ) : Option TrackId :=
  ((q.tracks.records[index + 1]?).or
    (if index = 0 then none else q.tracks.records[index - 1]?)).map (·.id)

/-- The entries of a removed item are let go, the current one only when nothing replaces it. The
answer names the batches: any of them, and the one that releases the pending handover's entry. -/
def releaseEntries (replacement : Option TrackId) (pending : Option PendingHandover) (id : TrackId) :
    Run W PlayError (Option Seq × Option Seq) := do
  let held ← read fun q => q.active.indices fun active =>
    active.item == id && !(active.role == .current && replacement.isSome)
  forFold (fun sofar index => do
    let owner ← read fun q => pending.any fun pending =>
      (q.active.get index).any (·.slot == pending.slot) &&
        q.active.isReplacement index == pending.replacement
    let released ← releaseTrack index
    return (released.or sofar.1, if owner then released else sofar.2)) (none, none) held

def releaseParkedOf (id : TrackId) (sent : Option Seq) : Run W PlayError (Option Seq) := do
  let parked ← read fun q => (List.range q.active.parked.length).filter fun index =>
    (q.active.parked[index]?).any (·.item == id)
  forFold (fun sofar index => fun q => match q.active.parked[index]? with
    | none => (.ok sofar, q)
    | some parked =>
      let (answer, track, out) := W.apply parked.track .release q.out
      (answer.map (·.or sofar), { q with
        active := q.active.modifyParked index ({ · with track := track })
        out := out })) sent parked

def releaseRemovedItem (id : TrackId) (replacement : Option TrackId)
    (pending : Option PendingHandover) : Run W PlayError (Option Seq × Option Seq) := do
  let (sent, removal) ← releaseEntries replacement pending id
  let sent ← releaseParkedOf id sent
  return (sent, removal)

def Queue.forgetRecord (q : Queue W) (index : ℕ) (id : TrackId) (shifted : Bool) : Queue W :=
  let q := { q with tracks := { q.tracks with records := q.tracks.records.eraseIdx index } }
  let q := { q with navigation := q.navigation.reconcile q.trackIds }.announce (.trackRemoved id)
  if shifted then q.announce (.currentTrackChanged q.current) else q

/-- The target waits for the removal of the entry it would have been handed over from. -/
def Queue.continueRemoval (q : Queue W) (pending : Option PendingHandover) (removal : Option Seq) :
    Queue W :=
  match pending, removal with
  | some pending, some seq => q.setTarget ({ · with
      continued := some (.removal seq pending.seq pending.slot false) })
  | _, _ => q

def removeEntry (id : TrackId) (output : Option W.Output) : Run W QueueError (Option Seq) := do
  let index ← require (.unknownTrackId id)
    (← read fun q => q.tracks.records.findIdx? fun record => record.id == id)
  let current ← read fun q => q.current == some id
  let pending ← read fun q => q.pendingHandover.filter fun pending =>
    pending.item == id && !pending.replacement
  let replacement ← read fun q => if current || pending.isSome then q.neighbour index else none
  let shifted ← read fun q => q.currentIndex.any fun current => decide (index < current)
  let targeted ← read fun q => q.target.any (·.item == id)
  whenever targeted cancelTarget
  let (sent, removal) ← asQueue (releaseRemovedItem id replacement pending)
  update (·.forgetRecord index id shifted)
  match replacement.filter fun _ => current || removal.isSome with
  | some next =>
    let entry ← requestTransition ⟨next, .none, .removedCurrent, false, true⟩ output
    update (·.continueRemoval pending removal)
    return sent.or entry
  | none =>
    update (·.reapReleased)
    return sent

def releaseAt (index : ℕ) : Run W PlayError Unit := do
  let _ ← applyAt index .release
  return ()

def releaseParkedAt (index : ℕ) : Run W PlayError Unit := fun q =>
  match q.active.parked[index]? with
  | none => (.ok (), q)
  | some parked =>
    let (answer, track, out) := W.apply parked.track .release q.out
    (answer.map fun _ => (), { q with
      active := q.active.modifyParked index ({ · with track := track })
      out := out })

def releaseTracks : Run W PlayError Unit := do
  let len ← read (·.active.len)
  forEach releaseAt (List.range len)
  let parked ← read (·.active.parked.length)
  forEach releaseParkedAt (List.range parked)

/-- Every track is released in one batch, and every entry leaves; nothing is sent when the queues
have no room for all of it. -/
def releaseAll : Run W PlayError (Option Seq) := do
  let detach ← read fun q => q.active.entries.any fun active => (W.snapshot active.track).attached
  let dispatcher ← read fun q => q.active.parked.length + (q.active.entries.filter fun active =>
    !(W.snapshot active.track).attached).length
  if ← read fun q => detach && decide (W.deckAvailable q.out = 0) then fail (.full "deck")
  else if ← read fun q => decide (W.dispatcherAvailable q.out < dispatcher) then
    fail (.full "dispatcher")
  else
    let sent ← sendRelease detach
    update fun q => { q with active := q.active.mapEntries ({ · with role := .leaving }) }
    return sent
where
  sendRelease (detach : Bool) : Run W PlayError (Option Seq) :=
    if detach then together .next releaseTracks
    else do
      releaseTracks
      return none

def Queue.clearList (q : Queue W) : Queue W :=
  let ids := q.trackIds
  let navigation := (({ NavigationState.new q.navigation.historyLimit with
    repeatMode := q.navigation.repeatMode }).setPlaybackOrder W.rng q.navigation.playbackOrder []
      none)
  let q := { q with
    target := none
    current := none
    heldPosition := none
    tracks := { q.tracks with records := [] }
    navigation := navigation }
  (ids.foldl (fun q id => q.announce (.trackRemoved id)) q).reapReleased

def clearEntries : Run W QueueError (Option Seq) := do
  let sent ← asQueue releaseAll
  update (·.clearList)
  return sent

def closeTracks : Run W PlayError (Option Seq) := do
  let sent ← releaseAll
  update fun q =>
    { q with target := none, shutdown := true, tracks := q.tracks.cancelLoads }.reapReleased
  return sent

inductive QueueCommand (W : World) where
  | append (id : TrackId) (source : W.Source) (position : W.Position)
  | insert (id : TrackId) (source : W.Source) (after : Option TrackId)
  | remove (id : TrackId)
  | removeAll
  /-- The identities the allocator hands out come with the sources. -/
  | setTracks (tracks : List (TrackId × W.Source))
  | select (id : TrackId) (transition : Transition)
  | next (transition : Transition)
  | previous (transition : Transition)
  | play (moment : When SessionFrame)
  | pause (moment : When SessionFrame)
  | seek (position : W.Position)
  | configureTrack (change : W.Change) (moment : When SessionFrame)
  | gainProgram (item : TrackId) (program : W.GainProgram)
  | configureCrossfade (settings : CrossfadeSettings) (moment : When SessionFrame)
  | configureGapless (gapless : Bool) (moment : When SessionFrame)
  | setActionAtItemEnd (action : ActionAtItemEnd)
  | setPlaybackOrder (order : PlaybackOrder)
  | setRepeat (mode : RepeatMode)
  /-- Volume, level, mute, equaliser and interruption: changes only passed on to the outbox. -/
  | mix (change : W.MixerChange)
  | tick
  | close
  | load (report : QueueTracks.Tracks.LoadReport)

def Queue.known (q : Queue W) (id : TrackId) : Bool := q.tracks.records.any (·.id == id)

def validateCommand (command : QueueCommand W) : Run W QueueError Unit := do
  if ← read (·.shutdown) then fail (.play .closed)
  else match command with
    | .select id transition =>
      let crossfade ← read (·.config.crossfade)
      let _ ← asQueue (ofExcept (W.validate (transition.settings crossfade)))
      if ← read (·.known id) then return () else fail (.unknownTrackId id)
    | .remove id | .insert _ _ (some id) =>
      if ← read (·.known id) then return () else fail (.unknownTrackId id)
    | _ => return ()

def insertPlace (after : Option TrackId) : Run W QueueError ℕ := do
  match after with
  | none => return 0
  | some id =>
    let index ← require (.unknownTrackId id)
      (← read fun q => q.tracks.records.findIdx? fun record => record.id == id)
    return index + 1

def insertAfter (id : TrackId) (source : W.Source) (after : Option TrackId)
    (output : Option W.Output) : Run W QueueError Unit := do
  let index ← insertPlace after
  update (·.insertEntry id source W.zeroPosition (.inFront index))
  let behind ← read fun q => decide (after = q.current) && q.current.isSome
  whenever behind cancelAuto
  armInitialLoad output

def pauseAt (moment : When SessionFrame) : Run W QueueError (Option Seq) := do
  if ← read fun q => q.activeCurrentIndex.isNone && q.target.isSome then
    withdrawTransition
    let _ ← asQueue (require .notReady (← read (·.target)))
    update (·.setTarget (·.setPlaying false))
    asQueue transitionLoaded
  else
    update (·.setTarget fun target => if target.auto then target else target.setPlaying false)
    cancelAuto
    asQueue (transport (.pause moment))

/-- The item a play request is about: the one asked for last, else the current one. -/
def Queue.requested (q : Queue W) : Option (TrackId × Transition) :=
  ((q.target.filter (!·.auto)).map fun target => (target.item, target.transition)).or
    (q.current.map fun id => (id, .none))

def playAt (moment : When SessionFrame) (output : Option W.Output) :
    Run W QueueError (Option Seq) := do
  match ← read fun q => q.requested.filter fun requested => q.tracks.failed requested.1 with
  | some (id, transition) => requestTransition ⟨id, transition, .userSelect, false, true⟩ output
  | none =>
    if ← read (·.activeCurrentIndex.isSome) then
      update (·.setTarget fun target => if target.auto then target else target.setPlaying true)
      let sent ← asQueue (transport (.play moment))
      update fun q => match q.current with
        | none => q
        | some id => q.setStatus id .consumed
      return sent
    else if ← read (·.target.isSome) then
      update (·.setTarget (·.setPlaying true))
      asQueue transitionLoaded
    else nextTarget .none .initialLoad false true output

def Queue.receivers (q : Queue W) (moment : When SessionFrame) : List (ℕ × When SessionFrame) :=
  (q.active.indices (·.role != .leaving)).map fun index =>
    (index, if (q.statusAt index).any (·.isPlaying) then moment else .next)

def admitAt (change : W.Change) (entry : ℕ × When SessionFrame) :
    Run W PlayError (Option ℕ) := fun q =>
  match q.active.get entry.1 with
  | none => (.error .noActiveSlot, q)
  | some active =>
    let (cost, track) := W.admission active.track change entry.2 q.out
    (cost, { q with active := q.active.modify entry.1 ({ · with track := track }) })

def Queue.parkedHeld (q : Queue W) : List ℕ :=
  (List.range q.active.parked.length).filter fun index =>
    (q.active.parked[index]?).any fun parked => !(W.snapshot parked.track).status.isReleased

def admitParkedAt (change : W.Change) (index : ℕ) : Run W PlayError (Option ℕ) := fun q =>
  match q.active.parked[index]? with
  | none => (.ok none, q)
  | some parked =>
    let (cost, track) := W.admission parked.track change .next q.out
    (cost, { q with active := q.active.modifyParked index ({ · with track := track }) })

/-- The deck credits a settings change needs, and whether the current track takes a batch. -/
def admitTrackSettings (change : W.Change) (receivers : List (ℕ × When SessionFrame))
    (current : Option ℕ) : Run W PlayError (ℕ × Bool) := do
  let (cost, moves) ← forFold (fun sofar entry => do
    let cost ← admitAt change entry
    return (sofar.1 + cost.getD 0, sofar.2 || (some entry.1 == current && cost.isSome)))
    (0, false) receivers
  let cost ← forFold (fun sofar index => do
    let cost ← admitParkedAt change index
    return sofar + cost.getD 0) cost (← read (·.parkedHeld))
  return (cost, moves)

def configureParkedAt (change : W.Change) (index : ℕ) : Run W PlayError Unit := fun q =>
  match q.active.parked[index]? with
  | none => (.ok (), q)
  | some parked =>
    let (answer, track, out) := W.apply parked.track (.configure change .next) q.out
    (answer.map fun _ => (), { q with
      active := q.active.modifyParked index ({ · with track := track })
      out := out })

def applyTrackSettings (change : W.Change) (receivers : List (ℕ × When SessionFrame))
    (current : Option ℕ) : Run W PlayError Bool := do
  let moved ← forFold (fun moved entry => do
    let sent ← applyAt entry.1 (.configure change entry.2)
    return moved || (some entry.1 == current && sent.isSome)) false receivers
  forEach (configureParkedAt change) (← read (·.parkedHeld))
  return moved

/-- A change of the current track's speed moves its end, so the transition armed on it is withdrawn. -/
def Queue.withdraws (q : Queue W) (change : W.Change) (moves : Bool) : Bool :=
  W.isSpeed change && moves && q.target.any fun target => target.auto && target.stale.isNone &&
    target.repeated.isNone && (q.pendingHandover.any (·.item == target.item)) &&
      (q.incomingIndex target.item).isSome

def configureTracks (change : W.Change) (moment : When SessionFrame) : Run W QueueError Unit := do
  let change ← asQueue (ofExcept (W.checkChange change))
  let receivers ← read (·.receivers moment)
  if (match moment with
      | .timed _ => !receivers.any fun entry => entry.2 == moment
      | _ => false) then fail (.play .untimed)
  else
    let current ← read (·.activeCurrentIndex)
    let (cost, moves) ← asQueue (admitTrackSettings change receivers current)
    let withdraw ← read (·.withdraws change moves)
    if ← read fun q => decide (W.deckAvailable q.out < cost + withdraw.toNat) then
      fail (.play (.full "deck"))
    else
      let moved ← asQueue (applyTrackSettings change receivers current)
      update fun q => { q with
        config := { q.config with track := W.applyChange q.config.track change } }
      whenever (withdraw ∧ moved) withdrawAuto

def configureQueue (moment : When SessionFrame) (change : Run W QueueError Unit) :
    Run W QueueError Unit := do
  match moment with
  | .timed _ => fail (.play .untimed)
  | _ =>
    change
    withdrawTransition

def configureCrossfade (settings : CrossfadeSettings) : Run W QueueError Unit := do
  let settings ← asQueue (ofExcept (W.validate settings))
  update fun q => { q with config := { q.config with crossfade := settings } }.announce
    (.crossfadeSettingsChanged settings)

def applyItems (output : Option W.Output) : QueueCommand W → Run W QueueError (Option Seq)
  | .append id source position => do
    update (·.insertEntry id source position .append)
    armInitialLoad output
    return none
  | .insert id source after => do
    insertAfter id source after output
    return none
  | .remove id => removeEntry id output
  | .removeAll => clearEntries
  | .setTracks tracks => do
    let _ ← clearEntries
    forEach (fun entry => update fun q =>
      q.insertEntry entry.1 entry.2 W.zeroPosition .append) tracks
    armInitialLoad output
    return none
  | .load report => do
    update fun q => { q with tracks := q.tracks.applyReport report }
    return none
  | .tick => do
    match ← read (·.clock) with
    | none => return none
    | some clock =>
      tickWithOutput clock.1 output
      return none
  | .close => asQueue closeTracks
  | _ => return none

def applyQueueSettings : QueueCommand W → Run W QueueError (Option Seq)
  | .setActionAtItemEnd action => do
    update fun q => { q with config := { q.config with actionAtItemEnd := action } }.announce
      (.actionAtItemEndChanged action)
    cancelAuto
    return none
  | .setPlaybackOrder order => do
    update fun q => { q with
      navigation := q.navigation.setPlaybackOrder W.rng order q.trackIds q.current
      config := { q.config with playbackOrder := order } }.announce (.playbackOrderChanged order)
    cancelAuto
    return none
  | .setRepeat mode => do
    update fun q => { q with navigation := { q.navigation with repeatMode := mode } }.announce
      (.repeatModeChanged mode)
    cancelAuto
    return none
  | .mix change => asQueue (outside (W.send change))
  | .configureCrossfade settings moment => do
    configureQueue moment (configureCrossfade settings)
    return none
  | .configureGapless gapless moment => do
    configureQueue moment (update fun q => { q with config := { q.config with gapless := gapless } })
    return none
  | _ => return none

def gainProgram (item : TrackId) (program : W.GainProgram) : Run W QueueError (Option Seq) := do
  let index ← asQueue (require .notReady (← read fun q => q.active.position fun active =>
    active.role != .leaving && (W.snapshot active.track).item == item))
  asQueue (applyAt index (.gainProgram program))

def applyCommand (command : QueueCommand W) (output : Option W.Output) :
    Run W QueueError (Option Seq) := do
  validateCommand command
  match command with
  | .select id transition => requestTransition ⟨id, transition, .userSelect, false, true⟩ output
  | .next transition => nextTarget transition .userNext false true output
  | .previous transition =>
    match ← read fun q => q.navigation.prev q.trackIds with
    | none => return none
    | some id => requestTransition ⟨id, transition, .userPrev, false, true⟩ output
  | .play moment => playAt moment output
  | .pause moment => pauseAt moment
  | .seek position => seekTo position
  | .configureTrack change moment => do
    configureTracks change moment
    return none
  | .gainProgram item program => gainProgram item program
  | .append .. | .insert .. | .remove .. | .removeAll | .setTracks .. | .load .. | .tick | .close =>
    applyItems output command
  | .setActionAtItemEnd .. | .setPlaybackOrder .. | .setRepeat .. | .mix .. | .configureCrossfade ..
  | .configureGapless .. => applyQueueSettings command

def applyWithOutput (command : QueueCommand W) (output : Option W.Output) :
    Run W QueueError (Option Seq) := do
  let result ← attemptQueue (applyCommand command output)
  pumpLoads output
  publish
  ofExcept result

def Queue.isAttached (status : PlayingStatus W.Position) : Bool :=
  match status with
  | .loaded | .playing _ | .paused _ | .faded _ | .ended _ => true
  | _ => false

/-- Every track that plays adopts the rate of the output, or none starts to. -/
def setHostRate (rate : ℕ) : Run W PlayError Unit := do
  let loaded ← read fun q => q.active.tracks.filter fun track =>
    Queue.isAttached (W.snapshot track).status
  if loaded.any fun track => (W.snapshot track).laneRoom == 0 then fail (.full "lane")
  else if ← read fun q => decide (W.deckAvailable q.out <
      (loaded.filter fun track => (W.snapshot track).attached).length) then fail (.full "deck")
  else
    let len ← read (·.active.len)
    forEach rateAt (List.range len)
    let parked ← read (·.active.parked.length)
    forEach rateParkedAt (List.range parked)
where
  rateAt (index : ℕ) : Run W PlayError Unit := do
    match ← read (·.statusAt index) with
    | none => return ()
    | some status => whenever (Queue.isAttached status) do
      let _ ← applyAt index (.setHostRate rate)
      return ()
  rateParkedAt (index : ℕ) : Run W PlayError Unit := fun q =>
    match q.active.parked[index]? with
    | none => (.ok (), q)
    | some parked => if Queue.isAttached (W.snapshot parked.track).status then
        let (answer, track, out) := W.apply parked.track (.setHostRate rate) q.out
        (answer.map fun _ => (), { q with
          active := q.active.modifyParked index ({ · with track := track })
          out := out })
      else (.ok (), q)

/-- What the host shows of its pass; `overflows` counts the events its mixer dropped. -/
structure HostPass (W : World) where
  output : W.Output
  overflows : ℕ

/-- Only after the tracks took the new rate does the queue take the pass. -/
def adoptPass (pass : HostPass W) (hadClock : Bool) : Run W QueueError Unit := do
  update fun q =>
    let q := if q.overflows ≠ pass.overflows ∧ q.current.isSome = true
      then q.announce (.currentTrackChanged q.current) else q
    { q with overflows := pass.overflows, sampleRate := W.outputRate pass.output }
  whenever (hadClock = false) do
    armInitialLoad (some pass.output)
    pumpLoads (some pass.output)

def acceptHostPass (pass : HostPass W) : Run W QueueError Unit := do
  let hadClock ← read (·.clock.isSome)
  update fun q => { q with clock := W.pass q.out }
  let rate := W.outputRate pass.output
  if ← read fun q => q.sampleRate != 0 && q.sampleRate != rate && rate != 0 then
    match ← attemptQueue (setHostRate rate) with
    | .error _ => return ()
    | .ok () => adoptPass pass hadClock
  else adoptPass pass hadClock

inductive Call (W : World) where
  | accept (pass : HostPass W)
  | command (command : QueueCommand W) (output : Option W.Output)
  | settle (receipt : TrackReceipt) (output : Option W.Output)
  | tick (now : SessionFrame) (output : Option W.Output)
  | close

def drainOne (command : QueueCommand W) (output : Option W.Output) : Run W QueueError Unit := do
  match ← attemptQueue (validateCommand command) with
  | .error e =>
    publish
    fail e
  | .ok () =>
    let _ ← applyWithOutput command output
    return ()

def perform : Call W → Run W QueueError Unit
  | .accept pass => acceptHostPass pass
  | .command command output => drainOne command output
  | .settle receipt output => do
    let _ ← settleWithOutput receipt output
    return ()
  | .tick now output => tickWithOutput now output
  | .close => do
    let _ ← asQueue closeTracks
    publish

def Queue.call (q : Queue W) (call : W.Out × Call W) : Queue W :=
  (perform call.2 { q with out := call.1 }).2

def machine (W : World) : TransitionSystem.Machine (Queue W) (W.Out × Call W) where
  Enabled _ _ := True
  next := Queue.call

def Queue.new (config : Config W) (out : W.Out) : Queue W where
  config := config
  tracks := ⟨[], []⟩
  navigation := (NavigationState.new config.maxHistorySize).setPlaybackOrder W.rng
    config.playbackOrder [] none
  current := none
  heldPosition := none
  target := none
  pendingHandover := none
  active := .new config.slots
  shutdown := false
  events := []
  published := []
  upcoming := none
  clock := none
  sampleRate := 0
  overflows := 0
  out := out

end DeckQueue

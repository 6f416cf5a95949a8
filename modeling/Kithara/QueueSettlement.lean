import Kithara.QueueLoads

/-! What a deck's queue makes of the receipts and the ticks of its owner: every track the receipt is
about settles, and what they answer moves the target, the handover and the loads on. -/
namespace DeckQueue

open Navigation (TrackId AdvanceReason NavigationState)
open QueueSlots QueueTracks StatefulPrograms StatefulPrograms.Program

variable {W : World}

def Queue.singleSlotRepeat (q : Queue W) (id : TrackId) : Bool :=
  q.config.slots == 1 && q.navigation.repeatMode == .one && q.current == some id

def repeatSegment : Run W PlayError Seq := do
  let index ← require .noActiveSlot (← read (·.activeCurrentIndex))
  let active ← require .noActiveSlot (← read (·.active.get index))
  if (W.snapshot active.track).laneRoom = 0 then fail (.full "lane")
  else
    let sent ← applyAt index (.playAfter active.slot)
    require (.internal "a repeated segment must name its Adopt batch") sent

def repeatTarget (crossfade : CrossfadeSettings) (id : TrackId) (finish : SessionFrame)
    (seq : Seq) : Target where
  item := id
  bound := some (.atOrBefore finish)
  settings := Transition.none.settings crossfade
  transition := .none
  reason := .naturalEof
  playing := true
  auto := true
  stale := none
  continued := none
  repeated := some seq
  chained := false

def repeatOne (finish : SessionFrame) : Run W PlayError Unit := do
  if ← read fun q => decide (W.deckAvailable q.out = 0) then fail (.full "deck")
  else
    let seq ← repeatSegment
    let id ← require .noActiveSlot (← read (·.current))
    update fun q => { q with target := some (repeatTarget q.config.crossfade id finish seq) }

/-- Each load that is ready finishes, and its target enters or is cancelled. -/
def loadedTracks : Run W PlayError Unit := do
  let ready ← read fun q => q.active.indices fun active =>
    active.load.any (!·.isOpening) && match Queue.statusOf active with
      | .loaded | .paused _ => true
      | _ => false
  forEach (fun index => do
    if ← finishLoad index then
      let _ ← transitionLoaded
      return ()
    else asPlay cancelTarget) ready

def refreshDeadline (target : Target) : Run W QueueError Unit := do
  match ← read (·.currentEnd) with
  | none => return ()
  | some finish =>
    if ← read fun q => target.auto && q.singleSlotRepeat target.item then
      whenever target.repeated.isNone (asQueue (repeatOne finish))
    else if target.auto ∧ target.reason = .naturalEof ∧ target.chained = false then
      let bound ← asQueue (autoBound target.settings)
      whenever (bound ≠ target.bound) withdrawAuto
    else return ()

def Queue.playingLast (q : Queue W) : Bool :=
  q.navigation.playbackOrder == .sequential && q.navigation.repeatMode != .one &&
    (NavigationState.nextSequential q.selectableIds q.current
      (q.navigation.repeatMode == .all)).isNone &&
    (q.activeCurrentIndex.bind q.statusAt).any (·.isPlaying)

def releaseParked (id : TrackId) : Run W PlayError Unit := do
  let parked ← read fun q => (List.range q.active.parked.length).filter fun index =>
    (q.active.parked[index]?).any (·.item == id)
  forEach (fun index => fun q => match q.active.parked[index]? with
    | none => (.ok (), q)
    | some parked =>
      let (answer, track, out) := W.apply parked.track .release q.out
      (answer.map fun _ => (), { q with
        active := q.active.modifyParked index ({ · with track := track })
        out := out })) parked

def preloadDeadlineTrack (id : TrackId) (output : Option W.Output) : Run W QueueError Unit := do
  match ← attemptQueue (loadTrack id .preloaded output) with
  | .ok _ => return ()
  | .error e =>
    whenever (e = .play (.full "deck")) do
      asQueue (releaseParked id)
      update (·.setStatus id .consumed)
    fail e

def Queue.endQueue (q : Queue W) : Queue W :=
  if (q.activeCurrentIndex.bind q.statusAt).any fun
    | .ended _ => true
    | _ => false
  then { q with current := none, heldPosition := none }.announce .queueEnded
  else q

/-- The preloaded track enters when it is ready, or as soon as its entry could come too late. -/
def enterNext (id : TrackId) (finish : SessionFrame) (output : Option W.Output) :
    Run W QueueError Unit := do
  let gapless ← read (·.config.gapless)
  let crossfade ← read (·.config.crossfade)
  let fade ← asQueue (if gapless then pure 0 else fadeFrames crossfade.duration)
  let ready ← read fun q => q.active.entries.any fun active =>
    active.item == id && active.role == .preloaded && active.load.isNone
  let due ← asQueue (if ready then pure true else do
    return decide (subFrames finish fade ≤ (← earliest)))
  whenever due do
    let _ ← requestTransition ⟨id, .crossfade, .naturalEof, true, true⟩ output
    return ()

def armNextDeadline (now : SessionFrame) (output : Option W.Output) : Run W QueueError Unit := do
  if ← read (·.playingLast) then return ()
  else
    match ← read (·.currentEnd) with
    | none => return ()
    | some finish =>
      match ← drawNext (·.current) true with
      | none => update (·.endQueue)
      | some id =>
        let lead ← asQueue (do frames (← read (·.config.preloadLead)))
        if subFrames finish lead ≤ now then
          if ← read (·.singleSlotRepeat id) then asQueue (repeatOne finish)
          else
            preloadDeadlineTrack id output
            enterNext id finish output
        else enterNext id finish output

def tickDeadlines (now : SessionFrame) (output : Option W.Output) : Run W QueueError Unit := do
  if ← read (·.shutdown) then return ()
  else
    asQueue releaseTails
    update (·.reapReleased)
    asQueue loadedTracks
    if (← read (·.config.actionAtItemEnd)) ≠ .advance then cancelAuto
    else
      match ← read (·.target) with
      | some target => refreshDeadline target
      | none => armNextDeadline now output

def refusal : Rejection PlayError → PlayError
  | .late => .late
  | .stale => .notReady
  | .unanswered => .closed
  | .refused error => error

/-- A record whose load was still wanted fails with the rejection, or is consumed when the load was
only the queue's own idea. -/
def Queue.failRejected (q : Queue W) (active : Active W.Track) (reason : Rejection PlayError) :
    Queue W :=
  if active.role ≠ .leaving ∧ q.tracks.hasStatus active.item (fun status =>
      status == .loading || status == .slow || status == .loaded) then
    if (q.target.any fun target => target.item == active.item && target.auto) ∨
        active.role = .preloaded then
      q.setStatus active.item .consumed
    else
      (q.failTrack active.item (.play (refusal reason))).announce
        (.trackLoadFailed active.item (W.describe (.play (refusal reason))) false)
  else q

def rejectLoad (index : ℕ) (reason : Rejection PlayError) (wanted : Bool) :
    Run W PlayError Unit := do
  let active ← require .noActiveSlot (← read (·.active.get index))
  update fun q => { q with active := q.active.modify index ({ · with load := none }) }
  update (·.failRejected active reason)
  let _ ← releaseTrack index
  update fun q => if wanted ∧ (q.target.any (·.auto) ∨ q.tracks.failed active.item = false)
    then { q with target := none } else q

def loadSettled (index : ℕ) (settled : Settled) : Run W PlayError Unit := do
  let _ ← require .noActiveSlot (← read (·.active.get index))
  let wanted ← read fun q => q.target.any fun target => q.incomingIndex target.item == some index
  match settled with
  | .applied _ _ =>
    if ← finishLoad index then
      let _ ← transitionLoaded
      return ()
    else whenever wanted (asPlay cancelTarget)
  | .rejected _ reason => rejectLoad index reason wanted
  | .pending => return ()

def repeatSettled (seq : Seq) : Settled → Run W PlayError Unit
  | .applied _ _ => update fun q => { q with target := none }.announce
      (.currentTrackAdvance q.current .naturalEof)
  | .rejected _ .late | .rejected _ .stale =>
    update (·.setTarget ({ · with repeated := none, continued := some (.entry seq) }))
  | _ => asPlay cancelTarget

def Queue.continuesPause (q : Queue W) (active : Active W.Track) (seq : Seq) : Bool :=
  active.role == .incoming && q.target.any fun target => !target.playing &&
    target.item == active.item && target.continued == some (.pause seq)

def enterPaused (index : ℕ) (active : Active W.Track) (continued applied : Bool) :
    Run W PlayError Unit := do
  if ← read fun q => applied && (q.target.any fun target => !target.playing &&
      target.item == active.item && (target.stale.isSome || continued)) &&
      active.role == .incoming && (Queue.statusOf active).isPaused then
    update (·.setTarget ({ · with stale := none }))
    let target ← require .notReady (← read (·.target))
    enterTarget index (← earliest) target.reason
  else return ()

def pauseSettled (index : ℕ) (seq : Seq) (settled : Settled) : Run W PlayError Unit := do
  let active ← require .noActiveSlot (← read (·.active.get index))
  if ← read (·.continuesPause active seq) then
    update (·.setTarget ({ · with continued := none }))
    match settled with
    | .rejected _ .late | .rejected _ .stale => return ()
    | .rejected _ _ => asPlay cancelTarget
    | .applied _ _ => enterPaused index active true true
    | .pending => return ()
  else enterPaused index active false (match settled with
    | .applied _ _ => true
    | _ => false)

def Queue.adopt (q : Queue W) (active : Active W.Track) : Queue W :=
  if q.current.isNone && active.role == .current && match Queue.statusOf active with
      | .loaded | .playing _ => true
      | _ => false
  then
    { q with current := some active.item }.announce (.currentTrackChanged (some active.item))
  else q

def transitionSettled (index : ℕ) (settled : Settled) : Run W PlayError Unit := do
  match settled.seq with
  | none => return ()
  | some seq =>
    match ← read (·.active.get index) with
    | none => return ()
    | some active =>
      if ← read fun q => q.target.any (·.repeated == some seq) then repeatSettled seq settled
      else if active.load.any (·.seq == seq) then loadSettled index settled
      else
        update fun q => match settled with
          | .applied _ _ => q.adopt active
          | _ => q
        pauseSettled index seq settled

def keepOutcome (q : Queue W) (loading rescheduling : Option Seq) (settled result : Settled) :
    Settled :=
  match settled with
  | .applied seq _ => match result with
    | .rejected _ _ => result
    | _ => if loading = some seq then result else settled
  | .rejected seq reason =>
    if (q.target.any fun target => target.continued.any (·.seq == seq)) = false ∧
        (rescheduling ≠ some seq ∨ reason ≠ .stale) then settled else result
  | .pending => result

def settleOutcome (result : Settled) (outcome : ℕ × Settled) : Run W PlayError Settled := do
  let loading ← read fun q => ((q.active.get outcome.1).bind (·.load)).map (·.seq)
  let rescheduling ← read fun q => q.target.bind (·.stale)
  match ← attemptPlay (transitionSettled outcome.1 outcome.2) with
  | .error e => match outcome.2.seq with
    | some seq => return .rejected seq (.refused e)
    | none => return result
  | .ok () => read (keepOutcome · loading rescheduling outcome.2 result)

def settleTransitions (outcomes : List (ℕ × Settled)) : Run W PlayError Settled :=
  forFold settleOutcome .pending outcomes

def Queue.handoverEntry (q : Queue W) (pending : PendingHandover) : Option (Active W.Track × ℕ) :=
  q.active.entries.zipIdx.find? fun entry => q.handsOver pending entry.2 entry.1

def DeckOutcome.settled (seq : Seq) : DeckOutcome → Settled
  | .applied moment => .applied seq moment
  | .rejected reason => .rejected seq (reason.map .deck)

/-- Whether the batch is the pending handover's, and the entry it starts. -/
def Queue.settleHandover (q : Queue W) (seq : Seq) (outcome : DeckOutcome) (batch : Batch) :
    Option (Option ℕ × Settled) :=
  match q.pendingHandover.filter (·.seq == seq) with
  | none => none
  | some pending =>
    if (q.handoverEntry pending).any fun entry => !batch.names entry.1.slot then none
    else
      some ((q.active.entries.zipIdx.find? fun entry => q.handsOver pending entry.2 entry.1 &&
        batch.names entry.1.slot && batch.starts entry.1.slot).map (·.2), outcome.settled seq)

def commitHandover (seq : Seq) (index : ℕ) (moment : SessionFrame) : Run W PlayError Unit := do
  transitionApplied seq index moment
  update fun q => match q.target.filter (!·.auto) with
    | none => q
    | some target => if (q.incomingIndex target.item).isSome then q
      else match q.active.position fun active =>
          active.item == target.item && active.role == .outgoing with
        | none => q
        | some requested => q.setRole requested .incoming

/-- A handover that came too late is sent again; any other refusal cancels its target. -/
def recoverHandover (index : ℕ) (seq : Seq) (reason : Rejection PlayError) :
    Run W PlayError Unit := do
  if ← read fun q => reason == .stale && q.target.any (·.stale == some seq) then
    if ← read fun q => q.target.any (!·.playing) then
      let active ← require .noActiveSlot (← read (·.active.get index))
      whenever (Queue.statusOf active).isPaused (update (·.setTarget ({ · with stale := none })))
    else
      update fun q => q.setTarget fun target => { target with
        stale := none
        settings := target.transition.settings q.config.crossfade
        continued := some (.entry seq) }
  else if reason = .late ∨ reason = .stale then
    let earliest ← earliest
    update (·.setTarget ({ · with
      continued := some (.entry seq)
      bound := some (.atOrAfter earliest) }))
  else asPlay cancelTarget

def Queue.awaitsRemoval (q : Queue W) (seq : Seq) : Bool :=
  q.target.any fun target => target.reason == .removedCurrent && target.continued.any fun
    | .removal _ handover _ _ => handover == seq
    | _ => false

/-- A rejected handover: its entry goes unless it is still the target's or the current item's. -/
def rejectHandover (seq : Seq) (index : ℕ) (reason : Rejection PlayError) :
    Run W PlayError Unit := do
  update ({ · with pendingHandover := none })
  let active ← require .noActiveSlot (← read (·.active.get index))
  if ← read fun q => q.target.all (·.item != active.item) then
    let gone ← read fun q => decide (q.current ≠ some active.item ∧ active.role ≠ .leaving)
    whenever gone do
      let _ ← releaseTrack index
      return ()
  else recoverHandover index seq reason

def handoverSettled (index : Option ℕ) (settled : Settled) : Run W PlayError Unit := do
  match settled with
  | .pending => return ()
  | .applied seq moment =>
    if ← read fun q => q.pendingHandover.all (·.seq != seq) then return ()
    else match index with
      | none => update ({ · with pendingHandover := none })
      | some index => commitHandover seq index moment
  | .rejected seq reason =>
    if ← read fun q => q.pendingHandover.all (·.seq != seq) then return ()
    else
      let awaits ← read (·.awaitsRemoval seq)
      whenever awaits abandonRemovalEntry
      match index with
      | none => update ({ · with pendingHandover := none })
      | some index => rejectHandover seq index reason

/-- The seek that waits for this batch: gone when it was rejected, else it waits for the segment the
batch adopted. -/
def Queue.settleSeek (q : Queue W) (active : Active W.Track) (settled : Settled) (batch : Batch) :
    Queue W :=
  match q.heldPosition with
  | some (.pending item (.deck caller) position _) =>
    if item ≠ active.item then q
    else match settled with
      | .rejected answered _ => if answered = caller then { q with heldPosition := none } else q
      | .applied answered _ =>
        if answered = caller then { q with
          heldPosition := some (.pending item (.deck caller) position (batch.adopted active.slot)) }
        else q
      | .pending => q
  | _ => q

/-- One track settles a deck receipt; what it takes of the batch stays out of it. -/
def settleDeckAt (seq : Seq) (outcome : DeckOutcome) (sofar : List (ℕ × Settled) × Batch)
    (index : ℕ) : Run W PlayError (List (ℕ × Settled) × Batch) := fun q =>
  match q.active.get index with
  | none => (.ok sofar, q)
  | some active =>
    let (settled, track, batch, out) := W.settleDeck active.track seq outcome sofar.2 q.out
    let q := { q with active := q.active.modify index ({ · with track := track }), out := out }
    (.ok (sofar.1 ++ [(index, settled)], batch), q.settleSeek active settled batch)

def settleDeck (seq : Seq) (outcome : DeckOutcome) (batch : Batch) :
    Run W PlayError (List (ℕ × Settled) × Batch) := do
  let named ← read fun q => q.active.indices fun active => batch.names active.slot
  forFold (settleDeckAt seq outcome) ([], batch) named

/-- A rejected removal keeps the neighbour it would have entered, or cancels what waited for it. -/
def rejectRemoval : Run W PlayError Unit := do
  if ← read fun q => q.target.any (·.reason == .removedCurrent) then abandonRemovalEntry
  else
    let _ ← attemptPlay cancelTarget
    return ()

def Queue.removalSlot (q : Queue W) (seq : Seq) (batch : Batch) : Option Slot :=
  q.target.bind fun target => match target.continued with
    | some (.removal removal _ slot _) =>
      if removal = seq ∧ batch.names slot then some slot else none
    | _ => none

def Queue.applyRemoval (q : Queue W) (seq : Seq) (batch : Batch) : Queue W :=
  q.setTarget fun target => match target.continued with
    | some (.removal removal handover slot _) =>
      if removal = seq ∧ batch.names slot
      then { target with continued := some (.removal removal handover slot true) } else target
    | _ => target

structure DeckSettlement where
  outcomes : List (ℕ × Settled)
  handover : Option (Option ℕ × Settled)
  removalResult : Option Settled

def settleDeckReceipt (seq : Seq) (outcome : DeckOutcome) (batch : Batch) :
    Run W PlayError DeckSettlement := do
  let removal ← read (·.removalSlot seq batch)
  let returned := removal.any batch.returns
  let handover ← read (·.settleHandover seq outcome batch)
  let (outcomes, batch) ← settleDeck seq outcome batch
  whenever (returned ∧ outcomes.any fun entry => match entry.2 with
      | .applied owned _ => owned == seq
      | _ => false) (update (·.applyRemoval seq batch))
  let rejected := removal.isSome && outcomes.any fun entry => match entry.2 with
    | .rejected owned _ => owned == seq
    | _ => false
  match outcome with
  | .applied _ => return ⟨outcomes, handover, none⟩
  | .rejected reason =>
    whenever rejected rejectRemoval
    return ⟨outcomes, handover, if rejected then some (.rejected seq (reason.map .deck)) else none⟩

def classifyLoad (id : TrackId) (leaving wanted : Bool) (outcome : LoadOutcome) :
    Run W PlayError Bool := fun q =>
  if leaving then (.ok false, q)
  else match outcome with
    | .applied => (.ok false, q)
    | .rejected .late => (.ok false, q.failTrack id (.play .late))
    | .rejected .stale => (.ok false, q.failTrack id (.play .notReady))
    | .rejected .unanswered => (.ok false, q.failTrack id (.play .closed))
    | .rejected (.refused .cancelled) => (.ok false, q.setStatus id .cancelled)
    | .rejected (.refused (.refused text asksAgain)) =>
      let reason := W.describe (.resource text)
      let (tracks, later) := q.tracks.refused id reason asksAgain wanted (W.cancelled q.out)
      let q := { q with tracks := tracks }
      (.ok later, if later then q else q.announce (.trackLoadFailed id reason false))

def Queue.announceLoaded (q : Queue W) (id : TrackId) : Queue W :=
  let (tracks, news) := q.tracks.loaded id (W.cancelled q.out)
  let q := { q with tracks := tracks }
  if news then match q.tracks.records.findIdx? fun record => record.id == id with
    | some position => q.announce (.nextTrackReady id position)
    | none => q
  else q

def Queue.acceptLoad (q : Queue W) (index : ℕ) (seq : Seq) : Queue W :=
  match q.active.get index with
  | none => q
  | some active =>
    let q := { q with active := q.active.modify index ({ · with load := some (.attaching seq) }) }
    if active.role = .leaving then q else q.announceLoaded active.item

def settleLoadedAt (index : ℕ) (seq : Seq) (outcome : LoadOutcome) : Run W PlayError Settled :=
  fun q => match q.active.get index with
    | none => (.ok .pending, q)
    | some active =>
      let (settled, track, out) := W.settleLoaded active.track seq outcome q.out
      (.ok settled, { q with
        active := q.active.modify index ({ · with track := track })
        out := out })

def reopenRequestedLoad (index : ℕ) (output : Option W.Output) : Run W QueueError Unit := do
  let active ← asQueue (require .noActiveSlot (← read (·.active.get index)))
  let record ← require (.unknownTrackId active.item) (← read (·.tracks.find active.item))
  let (item, token) ← startLoader active.item record.source output .notReady
  let seq ← asQueue (applyAt index (.load item (W.snapshot active.track).position))
  update fun q => { q with
    active := q.active.modify index ({ · with load := seq.map .opening })
    tracks := q.tracks.beginLoad active.item token }

def settleParked (index : ℕ) (seq : Seq) (outcome : LoadOutcome) : Run W PlayError Unit := do
  match ← read (·.active.parked[index]?) with
  | none => return ()
  | some parked =>
    let leaving := (W.snapshot parked.track).status.isReleased
    if outcome.isApplied then
      update fun q =>
        let (_, track, out) := W.settleLoaded parked.track seq outcome q.out
        let q := { q with
          active := q.active.modifyParked index
            ({ · with track := track, load := some (.attaching seq) })
          out := out }
        if leaving then q else q.announceLoaded parked.item
    else
      let _ ← classifyLoad parked.item leaving false outcome
      update fun q => { q with
        active := q.active.takeParked index
        out := (W.settleLoaded parked.track seq outcome q.out).2.2 }

def settleOpened (index : ℕ) (active : Active W.Track) (seq : Seq) (outcome : LoadOutcome)
    (output : Option W.Output) : Run W PlayError (List (ℕ × Settled)) := do
  let wanted ← read fun q => (q.target.any (·.item == active.item)) && active.role == .incoming
  let later ← classifyLoad active.item (active.role == .leaving) wanted outcome
  let settled ← settleLoadedAt index seq outcome
  if later then
    match ← attemptPlay (reopenRequestedLoad index output) with
    | .ok () => return []
    | .error e => return [(index, .rejected seq (.refused (playError W.describe e)))]
  else
    update fun q => if outcome.isApplied then q.acceptLoad index seq else q
    return [(index, settled)]

/-- The entry the load receipt belongs to settles; a background track keeps its outcome to itself. -/
def settleLoadedEntry (seq : Seq) (outcome : LoadOutcome) (output : Option W.Output) :
    Run W PlayError (List (ℕ × Settled)) := do
  match ← read fun q => q.active.position fun active => active.load == some (.opening seq) with
  | some index =>
    match ← read (·.active.get index) with
    | none => return []
    | some active => settleOpened index active seq outcome output
  | none =>
    match ← read fun q => q.active.parkedPosition fun parked =>
        parked.load == some (.opening seq) with
    | some index =>
      settleParked index seq outcome
      return []
    | none => return []

def settleLoadedReceipt (seq : Seq) (outcome : LoadOutcome) (output : Option W.Output) :
    Run W PlayError (List (ℕ × Settled)) := do
  let outcomes ← settleLoadedEntry seq outcome output
  asPlay (pumpLoads output)
  return outcomes

def itemFailed (id : TrackId) (fault : String) (output : Option W.Output) :
    Run W PlayError Unit := do
  if ← read fun q => q.current != some id ||
      (q.tracks.find id).all (·.status.isFailed) then return ()
  else
    update fun q => (q.setStatus id (.failed fault)).announce
      (.trackLoadFailed id fault (q.config.actionAtItemEnd == .advance))
    if ← read fun q => q.target.isNone && q.config.actionAtItemEnd == .advance then
      match ← attemptPlay (nextTarget .none .trackFailed true true output) with
      | .ok none => update ({ · with current := none })
      | _ => return ()
    else return ()

def itemEnded (slot : Slot) (moment : SessionFrame) (output : Option W.Output) :
    Run W PlayError Unit := do
  match ← read fun q => q.active.entries.find? (·.slot == slot) with
  | none => return ()
  | some active =>
    if (Queue.statusOf active).endedAt moment then
      let current ← read fun q => q.active.entries.any fun active =>
        active.slot == slot && active.role == .current && q.current == some active.item
      let action ← read (·.config.actionAtItemEnd)
      whenever (current ∧ action = .pause) do
        let _ ← attemptPlay (transport (.pause .next))
        return ()
      whenever current do
        let _ ← attemptPlay (tickDeadlines moment output)
        return ()
    else return ()

def itemEvent (event : DeckEvent) (output : Option W.Output) : Run W PlayError Unit := do
  match event with
  | .failed slot moment fault =>
    match ← read fun q => q.active.entries.find? fun active =>
        active.slot == slot && active.role == .current with
    | none => return ()
    | some active =>
      if (Queue.statusOf active).failedAt moment fault then itemFailed active.item fault output
      else return ()
  | .ended slot moment => itemEnded slot moment output
  | _ => return ()

def settleEventAt (event : DeckEvent) (sofar : List (ℕ × Settled)) (index : ℕ) :
    Run W PlayError (List (ℕ × Settled)) := fun q =>
  match q.active.get index with
  | none => (.ok sofar, q)
  | some active =>
    let (settled, track, out) := W.settleEvent active.track event q.out
    (.ok (sofar ++ [(index, settled)]), { q with
      active := q.active.modify index ({ · with track := track })
      out := out })

/-- A pending seek lets its position go once the shown track applied it or shows another item. -/
def settleHeldPosition : Run W PlayError Unit := fun q =>
  match q.heldPosition with
  | some (.pending item sent _ segment) =>
    match q.shownIndex with
    | none => (.ok (), { q with heldPosition := none })
    | some index => match q.active.get index with
      | none => (.ok (), { q with heldPosition := none })
      | some active =>
        if active.item ≠ item then (.ok (), { q with heldPosition := none })
        else match sent with
          | .lane seq =>
            let (done, track) := W.seekApplied active.track seq
            let q := { q with active := q.active.modify index ({ · with track := track }) }
            (.ok (), if done then { q with heldPosition := none } else q)
          | .deck _ =>
            (.ok (), if segment.isSome ∧ (W.snapshot active.track).segment = segment
              then { q with heldPosition := none } else q)
  | _ => (.ok (), q)

def drawUpcoming : Run W QueueError (Option TrackId) := do
  match ← read (·.target) with
  | some target => return some target.item
  | none => drawNext (·.current) true

def publish : Run W QueueError Unit := do
  asQueue settleHeldPosition
  let upcoming ← drawUpcoming
  update fun q => { q with
    published := q.published ++ (q.events ++ q.tracks.events) ++
      (if q.upcoming = upcoming then [] else [.upcomingChanged])
    events := []
    tracks := { q.tracks with events := [] }
    upcoming := upcoming }

inductive TrackReceipt where
  | deck (seq : Seq) (outcome : DeckOutcome) (batch : Batch)
  | event (event : DeckEvent)
  | loaded (seq : Seq) (outcome : LoadOutcome)

/-- The outcomes of the tracks a receipt is about, and what it says of the handover. -/
def collectOutcomes (output : Option W.Output) : TrackReceipt → Run W PlayError DeckSettlement
  | .deck seq outcome batch => settleDeckReceipt seq outcome batch
  | .event event => do
    let named ← read fun q => q.active.indices fun active => active.slot == event.slot
    let outcomes ← forFold (settleEventAt event) [] named
    itemEvent event output
    return ⟨outcomes, none, none⟩
  | .loaded seq outcome => do
    return ⟨← settleLoadedReceipt seq outcome output, none, none⟩

/-- The handover's outcome stands for the pass, unless it could not be settled. -/
def settlePass (settlement : DeckSettlement) (trackResult : Settled) : Run W PlayError Settled := do
  match settlement.handover with
  | some (index, settled) =>
    match ← attemptPlay (handoverSettled index settled) with
    | .ok () => return settled
    | .error e => match settled.seq with
      | some seq => return .rejected seq (.refused e)
      | none => return .pending
  | none => return settlement.removalResult.getD trackResult

def settleWithOutput (receipt : TrackReceipt) (output : Option W.Output) :
    Run W QueueError Settled := do
  let settlement ← asQueue (collectOutcomes output receipt)
  let trackResult ← asQueue (settleTransitions settlement.outcomes)
  let result ← asQueue (settlePass settlement trackResult)
  let _ ← attemptQueue releaseTails
  let _ ← attemptQueue transitionLoaded
  update (·.reapReleased)
  publish
  return result

def tickAt (now : SessionFrame) (index : ℕ) : Run W QueueError Unit := fun q =>
  match q.active.get index with
  | none => (.ok (), q)
  | some active =>
    let (track, out) := W.tickTrack active.track now q.out
    (.ok (), { q with active := q.active.modify index ({ · with track := track }), out := out })

def tickParkedAt (now : SessionFrame) (index : ℕ) : Run W QueueError Unit := fun q =>
  match q.active.parked[index]? with
  | none => (.ok (), q)
  | some parked =>
    let (track, out) := W.tickTrack parked.track now q.out
    (.ok (), { q with active := q.active.modifyParked index ({ · with track := track }), out := out })

def tickWithOutput (now : SessionFrame) (output : Option W.Output) : Run W QueueError Unit := do
  let parked ← read (·.active.parked.length)
  update fun q => { q with clock := q.clock.map fun clock => (now, clock.2) }
  let len ← read (·.active.len)
  forEach (tickAt now) (List.range len)
  forEach (tickParkedAt now) (List.range parked)
  let _ ← attemptQueue (tickDeadlines now output)
  let _ ← attemptQueue transitionLoaded
  update (·.reapReleased)
  let left ← read (·.active.parked.length)
  whenever (left < parked) (pumpLoads output)
  publish

end DeckQueue

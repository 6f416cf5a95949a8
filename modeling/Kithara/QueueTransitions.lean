import Kithara.DeckQueue

/-! The transitions of a deck's queue: how its target is entered, withdrawn and cancelled, how the
batch that starts it goes out, and how an active track is released and reaped. -/
namespace DeckQueue

open Navigation (TrackId AdvanceReason)
open CommandProtocol (When)
open QueueSlots QueueTracks StatefulPrograms StatefulPrograms.Program

variable {W : World}

namespace Queue

def leave (q : Queue W) (index : ℕ) (replacement : Bool) : Queue W :=
  match q.active.get index with
  | none => q
  | some active =>
    let q := q.setRole index .leaving
    if replacement then q else { q with active := q.active.clearFade active.slot }

def reapable (q : Queue W) (active : Active W.Track) : Bool :=
  (statusOf active).isReleased && !active.load.any (·.isOpening) &&
    q.pendingHandover.all (·.item != active.item)

def reapOne (q : Queue W) (index : ℕ) : Queue W :=
  match q.active.get index with
  | none => q
  | some active =>
    let q := { q with active := q.active.remove index }
    if active.role = .leaving ∧ q.current = some active.item ∧ q.activeCurrentIndex = none then
      { q with current := none }.announce (.currentTrackChanged none)
    else q

def reapParked (q : Queue W) : Queue W :=
  { q with active := { q.active with
      parked := q.active.parked.filter fun parked =>
        !((W.snapshot parked.track).status.isReleased && !parked.load.any (·.isOpening)) } }

def reapReleased (q : Queue W) : Queue W :=
  let q := q.reapParked
  (q.active.indices q.reapable).reverse.foldl reapOne q

def demoteCurrent (q : Queue W) : Queue W :=
  match q.activeCurrentIndex with
  | none => q
  | some current => q.setRole current .outgoing

/-- The entry at the index becomes the current one and its item the current item. -/
def promote (q : Queue W) (index : ℕ) (id : TrackId) (reason : AdvanceReason) : Queue W :=
  let q := q.setRole index .current
  { q with
    active := q.active.activateReplacement index
    navigation := q.navigation.commit W.rng q.current id reason q.trackIds
    current := some id }

end Queue

def releaseTrack (index : ℕ) : Run W PlayError (Option Seq) := do
  let replacement ← read (·.active.isReplacement index)
  let sent ← applyAt index .release
  update (·.leave index replacement)
  return sent

def abandonRemovalEntry : Run W PlayError Unit := update fun q =>
  match q.target with
  | none => q
  | some target =>
    let q := { q with target := none }
    match q.incomingIndex target.item with
    | none => q
    | some incoming => q.setRole incoming .preloaded

def cancelRepeat : Run W PlayError Unit := do
  let index ← require .noActiveSlot (← read (·.activeCurrentIndex))
  let _ ← applyAt index .supersede
  return ()

def cancelledStatus (q : Queue W) (target : Target) : TrackStatus :=
  if (target.auto && (q.incomingIndex target.item).any fun index => !q.active.isReplacement index)
      || (target.reason == .initialLoad && q.tracks.hasStatus target.item (· == .loaded)) then
    .consumed
  else .cancelled

/-- The incoming entry of a cancelled target pauses when it is chained, else it is let go. -/
def dropIncoming (chained : Bool) : Option ℕ → Run W PlayError Unit
  | none => return ()
  | some index => if chained then do
      let _ ← applyAt index (.pause .next)
      return ()
    else do
      let _ ← releaseTrack index
      return ()

def cancelTarget : Run W QueueError Unit := do
  match ← read (·.target) with
  | none => return ()
  | some target =>
    let status ← read (cancelledStatus · target)
    if target.repeated.isSome then
      asQueue cancelRepeat
      update ({ · with target := none })
    else
      let incoming ← read (·.incomingIndex target.item)
      asQueue (dropIncoming target.chained incoming)
      update fun q =>
        let q := if (incoming.isSome ∨ q.current ≠ some target.item) ∧
            q.tracks.failed target.item = false
          then q.setStatus target.item status else q
        { q with target := none }.reapReleased

def releaseTails : Run W PlayError Unit := do
  let ended ← read fun q => q.active.indices fun active =>
    active.role == .outgoing && !(Queue.statusOf active).isPlaying
  forEach (fun index => do
    let _ ← releaseTrack index
    return ()) ended

def cancelAuto : Run W QueueError Unit := do
  let auto ← read fun q => q.target.any (·.auto)
  whenever auto cancelTarget
  let preloaded ← read fun q => q.active.indices fun active => active.role == .preloaded
  forEach (fun index => do
    let active ← asQueue (require .noActiveSlot (← read (·.active.get index)))
    let _ ← asQueue (releaseTrack index)
    update (·.setStatus active.item .consumed)) preloaded
  update (·.reapReleased)

/-- A Stop supersedes the target's slot basis; only Stale allows the new entry. -/
def withdrawTransition : Run W QueueError Unit := do
  match ← read fun q => q.target.filter (·.stale.isNone) with
  | none => return ()
  | some target =>
    match ← read (·.incomingIndex target.item) with
    | none => return ()
    | some index =>
      match ← read fun q => q.pendingHandover.filter (·.item == target.item) with
      | some pending =>
        let _ ← asQueue (applyAt index (.pause .next))
        update (·.setTarget ({ · with stale := some pending.seq }))
      | none =>
        update fun q => q.setTarget ({ · with
          settings := target.transition.settings q.config.crossfade })

def withdrawAuto : Run W QueueError Unit := do
  let auto ← read fun q => q.target.any (·.auto)
  whenever auto withdrawTransition

def seekAt (index : ℕ) (position : W.Position) : Run W PlayError (Option SeekBatch) := fun q =>
  match q.active.get index with
  | none => (.error .noActiveSlot, q)
  | some active =>
    let (answer, track, out) := W.seek active.track position q.out
    (answer, { q with active := q.active.modify index ({ · with track := track }), out := out })

def hold (position : W.Position) : Run W QueueError Unit :=
  update ({ · with heldPosition := some (.held position) })

def seekTo (position : W.Position) : Run W QueueError (Option Seq) := do
  match ← read fun q =>
      q.activeCurrentIndex.or (q.target.bind fun target => q.incomingIndex target.item) with
  | none =>
    hold position
    return none
  | some index =>
    let active ← asQueue (require .noActiveSlot (← read (·.active.get index)))
    if active.load.any (·.isOpening) then
      hold position
      return none
    else
      let sent ← asQueue (seekAt index position)
      withdrawAuto
      update ({ · with
        heldPosition := sent.map fun sent => .pending active.item sent position none })
      return sent.map (·.seq)

def frames (nanos : ℕ) : Run W PlayError ℕ := do
  let rate ← read (·.sampleRate)
  if rate = 0 then fail .untimed
  else if nanos * rate / 10 ^ 9 < 2 ^ 64 then return nanos * rate / 10 ^ 9
  else fail (.internal s!"frame count for {nanos} ns at {rate} Hz is out of range")

def fadeFrames (duration : F32) : Run W PlayError ℕ := do
  let time ← require (.invalidParameter "crossfade duration" duration) (W.nanos duration)
  frames time

def Queue.currentEnd (q : Queue W) : Option SessionFrame :=
  match q.current with
  | none => none
  | some _ => match q.activeCurrentIndex.bind q.active.get with
    | none => none
    | some active =>
      let snapshot := W.snapshot active.track
      match snapshot.status with
      | .ended moment | .failed moment _ => some moment
      | .playing _ =>
        if snapshot.duration.any (· != 0) && q.sampleRate != 0
        then W.plannedEnd active.track q.sampleRate else none
      | _ => none

def autoBound (settings : CrossfadeSettings) : Run W PlayError (Option Bound) := do
  match ← read (·.currentEnd) with
  | none => return none
  | some finish =>
    let gapless ← read (·.config.gapless)
    let fade ← fadeFrames (if gapless then 0 else settings.duration)
    return some (.atOrBefore (subFrames finish fade))

/-- What an entry does to the entry that sounds: its role, and the end of its fade. -/
def fadeCurrent (target : Target) (moment : SessionFrame) : Option ℕ → Run W PlayError Unit
  | none => return ()
  | some current => do
    let leaving ← require .noActiveSlot (← read (·.active.get current))
    update (·.setRole current .outgoing)
    whenever (target.chained = false) do
      let fade ← fadeFrames target.settings.duration
      update fun q => { q with active := q.active.fadeOut leaving.slot (addFrames moment fade) }

def Queue.announceEntry (q : Queue W) (target : Target) (crossfading : Bool)
    (reason : AdvanceReason) : Queue W :=
  let q := if crossfading && target.playing && isPositive target.settings.duration &&
      !target.chained then q.announce (.crossfadeStarted target.settings) else q
  let q := { q with target := none }.announce (.currentTrackChanged q.current)
  (q.announce (.currentTrackAdvance q.current reason)).setStatus target.item .consumed

def enterTarget (index : ℕ) (moment : SessionFrame) (reason : AdvanceReason) :
    Run W PlayError Unit := do
  let target ← require .notReady (← read (·.target))
  let outgoing ← read (·.activeCurrentIndex)
  let incoming ← require .noActiveSlot (← read (·.active.get index))
  let crossfading ← read fun q =>
    (outgoing.bind q.active.get).any fun active => active.slot != incoming.slot
  fadeCurrent target moment outgoing
  update fun q => (q.promote index target.item reason).announceEntry target crossfading reason

def Queue.handsOver (q : Queue W) (pending : PendingHandover) (index : ℕ)
    (active : Active W.Track) : Bool :=
  active.item == pending.item && active.slot == pending.slot &&
    q.active.isReplacement index == pending.replacement

def Queue.takeOver (q : Queue W) (index : ℕ) (id : TrackId) (reason : AdvanceReason) : Queue W :=
  let q := (q.demoteCurrent.promote index id reason).setStatus id .consumed
  (q.announce (.currentTrackChanged q.current)).announce (.currentTrackAdvance q.current reason)

/-- Step 5: only the batch that starts the target changes the sounding item. -/
def transitionApplied (seq : Seq) (index : ℕ) (moment : SessionFrame) : Run W PlayError Unit := do
  match ← read fun q => q.pendingHandover.filter fun pending =>
      pending.seq == seq && (q.active.get index).any (q.handsOver pending index) with
  | none => return ()
  | some pending =>
    update ({ · with pendingHandover := none })
    let active ← require .noActiveSlot (← read (·.active.get index))
    if ← read fun q => q.target.all (·.item != active.item) then
      update (·.takeOver index active.item pending.reason)
    else enterTarget index moment pending.reason

def finishLoad (index : ℕ) : Run W PlayError Bool := do
  let active ← require .noActiveSlot (← read (·.active.get index))
  update fun q => { q with active := q.active.modify index ({ · with load := none }) }
  read fun q => q.tracks.hasStatus active.item (· != .cancelled)

/-- Does the entry's first attachment to the deck still run, with nothing sounding? -/
def Queue.prepared (q : Queue W) (index : ℕ) : Bool :=
  q.current.isNone &&
    (q.active.entries.all fun active => active.role == .incoming || active.role == .preloaded) &&
    !q.active.isReplacement index && (q.active.get index).any fun active =>
      active.load.any (!·.isOpening) && (match Queue.statusOf active with
        | .loading => true
        | _ => false) && (W.snapshot active.track).attached

def initialAttachment (index : ℕ) : Run W PlayError Bool := do
  if ← read (·.prepared index) then
    let earliest ← earliest
    read fun q => q.target.any fun target => match target.bound with
      | some (.atOrAfter frame) => decide (frame ≤ earliest)
      | _ => false
  else return false

def finishTarget (index : ℕ) : Option LoadState → Run W PlayError Bool
  | none => return true
  | some load => do
    if ← finishLoad index then
      update (·.setTarget ({ · with continued := some (.load load.seq) }))
      return true
    else
      asPlay cancelTarget
      return false

def seekHeld : Run W PlayError Unit := do
  match ← read (·.heldPosition) with
  | some (.held position) =>
    let _ ← asPlay (seekTo position)
    return ()
  | _ => return ()

/-- Only a target that plays may start while its first attachment still runs. -/
def attaching (index : ℕ) (target : Target) : Run W PlayError Bool :=
  if target.playing then initialAttachment index else return false

def prepareTarget (index : ℕ) (target : Target) : Run W PlayError Bool := do
  match ← read (·.active.get index) with
  | none => return false
  | some active =>
    let replacement ← read (·.active.isReplacement index)
    if active.role ≠ .incoming ∨ (active.load.any (·.isOpening) ∧ replacement = false) then
      return false
    else
      let initial ← attaching index target
      if initial = false ∧ (Queue.statusOf active).isReady = false then return false
      else if ← finishTarget index (active.load.filter fun _ => !initial) then
        seekHeld
        return true
      else return false

def pauseTarget (index : ℕ) (target : Target) : Run W PlayError (Option Seq) := do
  if ← read fun q => q.target.any fun target => match target.continued with
      | some (.pause _) => true
      | _ => false then return none
  else
    match ← applyAt index (.pause .next) with
    | some seq =>
      let _ ← require .notReady (← read (·.target))
      update (·.setTarget ({ · with continued := some (.pause seq) }))
      return some seq
    | none =>
      enterTarget index (← earliest) target.reason
      return none

def setBound (bound : Bound) : Run W PlayError (Option Bound) := do
  let _ ← require .notReady (← read (·.target))
  update (·.setTarget ({ · with bound := some bound }))
  return some bound

def targetEntryBound (target : Target) : Run W PlayError (Option Bound) := do
  if target.auto ∧ target.reason = .naturalEof then
    match ← autoBound target.settings with
    | none => return none
    | some bound => setBound bound
  else if target.reason = .removedCurrent ∨ (target.continued.any fun
      | .removal _ _ _ applied => applied
      | _ => false) then
    setBound (.atOrAfter (← earliest))
  else
    let bound ← require .untimed target.bound
    return some bound

def transitionEntry (index : ℕ) (bound : Bound) : Run W PlayError (Option SessionFrame) := do
  let earliest ← earliest
  let active ← require .noActiveSlot (← read (·.active.get index))
  match W.entry active.track bound with
  | none => return none
  | some frame =>
    if frame < earliest then return W.entry active.track (.atOrAfter earliest)
    else return some frame

def prepareEntryAt (index : ℕ) (frame : SessionFrame) : Run W PlayError Bool := fun q =>
  match q.active.get index with
  | none => (.error .noActiveSlot, q)
  | some active =>
    let (answer, track, out) := W.prepareEntry active.track frame q.out
    (answer, { q with active := q.active.modify index ({ · with track := track }), out := out })

def prepareTransition (incoming : ℕ) (frame : SessionFrame) : Run W PlayError Bool := do
  if ← read fun q => decide (W.deckAvailable q.out = 0) then fail (.full "deck")
  else prepareEntryAt incoming frame

def Queue.chainPredecessor (q : Queue W) (target : Target) (replacement : Bool) : Option Slot :=
  if target.auto && (q.config.gapless || isZero target.settings.duration) && !replacement then
    ((q.activeCurrentIndex.bind q.active.get).filter fun active =>
      (Queue.statusOf active).isPlaying).map (·.slot)
  else none

def transitionWhen (incoming : ℕ) (frame : SessionFrame) : Run W PlayError (When SessionFrame) := do
  if ← initialAttachment incoming then
    if frame = (← earliest) then return .next else return .timed frame
  else return .timed frame

/-- A group of the outbox: its parts go out as one batch, or come back when one of them fails. -/
def openGroup (moment : When SessionFrame) : Run W PlayError Unit := fun q =>
  let (answer, out) := W.openGroup moment q.out
  (answer, { q with out := out })

def closeGroup : Run W PlayError (Option Seq) := fun q =>
  let (answer, out) := W.closeGroup q.out
  (answer, { q with out := out })

def together (moment : When SessionFrame) (parts : Run W PlayError Unit) :
    Run W PlayError (Option Seq) := do
  openGroup moment
  match ← attemptPlay parts with
  | .error e =>
    update fun q => { q with out := W.dropGroup q.out }
    fail e
  | .ok () => closeGroup

def finishGroupAt (sent : Option Seq) (index : ℕ) : Run W PlayError Unit := fun q =>
  match q.active.get index with
  | none => (.error .noActiveSlot, q)
  | some active =>
    let (track, out) := W.finishGroup active.track sent q.out
    (.ok (), { q with active := q.active.modify index ({ · with track := track }), out := out })

def fadeTransition (incoming : ℕ) (outgoing : Option ℕ) (moment : When SessionFrame)
    (settings : CrossfadeSettings) : Run W PlayError (Option Seq) := do
  let active ← require .noActiveSlot (← read (·.active.get incoming))
  let replacement ← read (·.active.isReplacement incoming)
  let result ← attemptPlay (together moment do
    whenever replacement do
      let _ ← applyAt incoming (.seat active.slot moment)
      return ()
    let _ ← applyAt incoming (.fade moment settings .inward)
    forEach (fun index => do
      let _ ← applyAt index (.fade moment settings .outward)
      return ()) outgoing.toList)
  match result with
  | .ok none => return none
  | .ok (some seq) =>
    finishGroupAt (some seq) incoming
    forEach (finishGroupAt (some seq)) outgoing.toList
    return some seq
  | .error e =>
    finishGroupAt none incoming
    forEach (finishGroupAt none) outgoing.toList
    fail e

/-- The entry that sounds in another slot, unless it failed or was released. -/
def Queue.outgoingIndex (q : Queue W) (slot : Slot) : Option ℕ :=
  q.activeCurrentIndex.filter fun index => (q.active.get index).any fun current =>
    current.slot != slot && match Queue.statusOf current with
      | .failed _ _ | .released => false
      | _ => true

def Queue.handOver (q : Queue W) (target : Target) (slot : Slot) (replacement chain : Bool) :
    Option Seq → Queue W
  | none => q
  | some seq => { q with
      pendingHandover := some ⟨seq, target.item, slot, replacement, target.reason⟩ }.setTarget
        ({ · with chained := chain })

/-- The entry follows its predecessor's end, or fades in against the outgoing track. -/
def sendEntry (incoming : ℕ) (outgoing : Option ℕ) (moment : When SessionFrame)
    (settings : CrossfadeSettings) : Option Slot → Run W PlayError (Option Seq)
  | some slot => applyAt incoming (.playAfter slot)
  | none => fadeTransition incoming outgoing moment settings

def sendTransition (incoming : ℕ) (frame : SessionFrame) : Run W PlayError (Option Seq) := do
  if ← read (·.pendingHandover.isSome) then return none
  else
    let target ← require .notReady (← read (·.target))
    if ← prepareTransition incoming frame then
      let active ← require .noActiveSlot (← read (·.active.get incoming))
      let replacement ← read (·.active.isReplacement incoming)
      let outgoing ← read (·.outgoingIndex active.slot)
      let predecessor ← read (·.chainPredecessor target replacement)
      let moment ← transitionWhen incoming frame
      let sent ← sendEntry incoming outgoing moment target.settings predecessor
      update (·.handOver target active.slot replacement predecessor.isSome sent)
      return sent
    else return none

/-- The current entry, when it is the item the target names and nothing else is incoming for it. -/
def Queue.currentTargetIndex (q : Queue W) (target : Target) : Option ℕ :=
  if target.auto = false ∧ q.current = some target.item ∧ q.tracks.failed target.item = false ∧
      q.incomingIndex target.item = none then q.activeCurrentIndex else none

def resumeTarget (index : ℕ) (playing : Bool) : Run W PlayError (Option Seq) := do
  let sent ← applyAt index (if playing then .play .next else .pause .next)
  update ({ · with target := none })
  return sent

/-- Enters the prepared target at the first frame its bound and this pass allow. -/
def startTarget (index : ℕ) (target : Target) : Run W PlayError (Option Seq) := do
  match ← targetEntryBound target with
  | none => return none
  | some bound =>
    match ← transitionEntry index bound with
    | none => return none
    | some frame =>
      let sent ← sendTransition index frame
      whenever sent.isSome do
        update (·.setTarget ({ · with continued := none }))
      return sent

def Queue.openTarget (q : Queue W) : Option Target :=
  q.target.filter fun target => target.stale.isNone && target.repeated.isNone &&
    !target.continued.any fun
      | .removal _ _ _ applied => !applied
      | _ => false

def transitionLoaded : Run W PlayError (Option Seq) := do
  match ← read (·.openTarget) with
  | none => return none
  | some target =>
    if ← read (·.pendingHandover.isSome) then return none
    else
      match ← read (·.currentTargetIndex target) with
      | some index => resumeTarget index target.playing
      | none =>
        match ← read (·.incomingIndex target.item) with
        | none => return none
        | some index =>
          if ← prepareTarget index target then
            if target.playing then startTarget index target else pauseTarget index target
          else return none

end DeckQueue

import Kithara.QueueSettling

/-! What the calls of a deck's owner do on the board of its queue: commands, passes, receipts and
ticks. -/
namespace DeckQueue

open FollowedMoves
open MixerBoard (Board Seat Handover Move Sound isAhead)
open Navigation (TrackId AdvanceReason)
open CommandProtocol (When)
open QueueSlots QueueTracks StatefulPrograms StatefulPrograms.Program

variable {W : World} {ε α : Type}

theorem moves_releaseEntries (replacement : Option TrackId) (pending : Option PendingHandover)
    (id : TrackId) : Keeps (Moves none) (releaseEntries (W := W) replacement pending id) := by
  apply keeps_bind (keeps_read _)
  intro held
  refine keeps_forFold (fun sofar index => ?_) held _
  apply keeps_bind (keeps_read _)
  intro owner
  apply keeps_bind (moves_releaseTrack index)
  intro released
  exact keeps_pure _

theorem steady_releaseParkedOf (id : TrackId) (sent : Option Seq) :
    Keeps Steady (releaseParkedOf (W := W) id sent) := by
  apply keeps_bind (keeps_read _)
  intro parked
  refine keeps_forFold (fun sofar index q => ?_) parked sent
  unfold Leads
  dsimp only
  split
  · exact ⟨rfl, rfl⟩
  · exact ⟨rfl, rfl⟩

theorem moves_releaseRemovedItem (id : TrackId) (replacement : Option TrackId)
    (pending : Option PendingHandover) :
    Keeps (Moves none) (releaseRemovedItem (W := W) id replacement pending) := by
  apply keeps_bind (moves_releaseEntries replacement pending id)
  rintro ⟨sent, removal⟩
  apply keeps_bind (keeps_moves (steady_releaseParkedOf id sent) none)
  intro sent
  exact keeps_pure _

theorem board_forgetRecord (q : Queue W) (index : ℕ) (id : TrackId) (shifted : Bool) :
    (q.forgetRecord index id shifted).board = q.board := by
  unfold Queue.forgetRecord
  dsimp only
  split <;> rfl

theorem board_continueRemoval (q : Queue W) (pending : Option PendingHandover)
    (removal : Option Seq) : (q.continueRemoval pending removal).board = q.board := by
  unfold Queue.continueRemoval
  split <;> rfl

theorem moves_removeEntry (id : TrackId) (output : Option W.Output) :
    Keeps (Moves none) (removeEntry id output) := by
  apply keeps_bind (keeps_read _)
  intro found
  apply keeps_bind (keeps_require _ _)
  intro index
  apply keeps_bind (keeps_read _)
  intro current
  apply keeps_bind (keeps_read _)
  intro pending
  apply keeps_bind (keeps_read _)
  intro replacement
  apply keeps_bind (keeps_read _)
  intro shifted
  apply keeps_bind (keeps_read _)
  intro targeted
  apply keeps_bind (keeps_whenever fun _ => moves_cancelTarget)
  intro _
  apply keeps_bind (moves_asQueue (moves_releaseRemovedItem id replacement pending))
  rintro ⟨sent, removal⟩
  apply keeps_bind (moves_aside fun q => board_forgetRecord q index id shifted)
  intro _
  split
  · apply keeps_bind (moves_requestTransition _ output)
    intro entry
    apply keeps_bind (moves_aside fun q => board_continueRemoval q pending removal)
    intro _
    exact keeps_pure _
  · apply keeps_bind keeps_reapReleased
    intro _
    exact keeps_pure _

theorem steady_releaseTracks : Keeps Steady (releaseTracks (W := W)) := by
  apply keeps_bind (keeps_read _)
  intro len
  refine keeps_bind (keeps_forEach (fun index => ?_) _) fun _ => ?_
  · exact keeps_bind (steady_applyAt index .release) fun _ => keeps_pure ()
  apply keeps_bind (keeps_read _)
  intro parked
  refine keeps_forEach (fun index q => ?_) _
  unfold Leads releaseParkedAt
  split
  · exact ⟨rfl, rfl⟩
  · exact ⟨rfl, rfl⟩

theorem moves_releaseAll : Keeps (Moves none) (releaseAll (W := W)) := by
  apply keeps_bind (keeps_read _)
  intro detach
  apply keeps_bind (keeps_read _)
  intro dispatcher
  apply keeps_bind (keeps_read _)
  intro full
  split
  · exact keeps_fail _
  · apply keeps_bind (keeps_read _)
    intro busy
    split
    · exact keeps_fail _
    · refine keeps_bind (keeps_moves ?_ none) fun sent => ?_
      · unfold releaseAll.sendRelease
        split
        · exact steady_together .next steady_releaseTracks
        · exact keeps_bind steady_releaseTracks fun _ => keeps_pure none
      · refine keeps_bind (keeps_update fun q => ?_) fun _ => keeps_pure sent
        exact moves_move .vacate (permitted_of_plain rfl) (fun _ => trivial) fun _ =>
          view_vacate _ _ _

theorem board_announceAll (ids : List TrackId) (q : Queue W) :
    (ids.foldl (fun q id => q.announce (.trackRemoved id)) q).board = q.board := by
  induction ids generalizing q with
  | nil => rfl
  | cons id ids ih => exact ih (q.announce (.trackRemoved id))

theorem moves_clearList (q : Queue W) : Moves none q q.clearList := by
  refine follows_trans (moves_move .forget (permitted_of_plain rfl) (fun _ => trivial) fun _ => ?_)
    (moves_reapReleased _)
  rw [board_announceAll]
  rfl

theorem moves_clearEntries : Keeps (Moves none) (clearEntries (W := W)) := by
  apply keeps_bind (moves_asQueue moves_releaseAll)
  intro sent
  apply keeps_bind (keeps_update moves_clearList)
  intro _
  exact keeps_pure sent

theorem moves_closeTracks : Keeps (Moves none) (closeTracks (W := W)) := by
  apply keeps_bind moves_releaseAll
  intro sent
  refine keeps_bind (keeps_update fun q => ?_) fun _ => keeps_pure sent
  refine follows_trans ?_ (moves_reapReleased _)
  exact follows_of_eq rfl

theorem steady_validateCommand (command : QueueCommand W) :
    Keeps Steady (validateCommand command) := by
  have hknown : ∀ id : TrackId, Keeps Steady (do
      if ← read (·.known id) then return () else fail (.unknownTrackId id) :
        Run W QueueError Unit) := fun id => by
    apply keeps_bind (keeps_read _)
    intro known
    split
    · exact keeps_pure ()
    · exact keeps_fail _
  apply keeps_bind (keeps_read _)
  intro shutdown
  split
  · exact keeps_fail _
  · split
    · apply keeps_bind (keeps_read _)
      intro crossfade
      apply keeps_bind (steady_asQueue (keeps_ofExcept _))
      intro _
      exact hknown _
    · exact hknown _
    · exact hknown _
    · exact keeps_pure ()

theorem moves_insertAfter (id : TrackId) (source : W.Source) (after : Option TrackId)
    (output : Option W.Output) : Keeps (Moves none) (insertAfter id source after output) := by
  refine keeps_bind ?_ fun index => ?_
  · unfold insertPlace
    split
    · exact keeps_pure 0
    · apply keeps_bind (keeps_read _)
      intro index
      apply keeps_bind (keeps_require _ _)
      intro index
      exact keeps_pure _
  · refine keeps_bind (moves_aside fun _ => ?_) fun _ => ?_
    · rfl
    apply keeps_bind (keeps_read _)
    intro behind
    apply keeps_bind (keeps_whenever fun _ => moves_cancelAuto)
    intro _
    exact moves_armInitialLoad output

theorem moves_pauseAt (moment : When SessionFrame) : Keeps (Moves none) (pauseAt (W := W) moment) := by
  apply keeps_bind (keeps_read _)
  intro early
  split
  · apply keeps_bind (keeps_moves steady_withdrawTransition none)
    intro _
    apply keeps_bind (keeps_read _)
    intro target
    apply keeps_bind (moves_asQueue (keeps_require _ _))
    intro target
    refine keeps_bind (moves_aside fun _ => ?_) fun _ => ?_
    · rfl
    exact moves_asQueue moves_transitionLoaded
  · refine keeps_bind (moves_aside fun _ => ?_) fun _ => ?_
    · rfl
    apply keeps_bind moves_cancelAuto
    intro _
    exact moves_asQueue (keeps_moves (steady_transport _) none)

theorem moves_playAt (moment : When SessionFrame) (output : Option W.Output) :
    Keeps (Moves none) (playAt moment output) := by
  apply keeps_bind (keeps_read _)
  intro requested
  split
  · exact moves_requestTransition _ output
  · apply keeps_bind (keeps_read _)
    intro current
    split
    · refine keeps_bind (moves_aside fun _ => ?_) fun _ => ?_
      · rfl
      apply keeps_bind (moves_asQueue (keeps_moves (steady_transport _) none))
      intro sent
      refine keeps_bind (moves_aside fun q => ?_) fun _ => keeps_pure sent
      split <;> rfl
    · apply keeps_bind (keeps_read _)
      intro target
      split
      · refine keeps_bind (moves_aside fun _ => ?_) fun _ => ?_
        · rfl
        exact moves_asQueue moves_transitionLoaded
      · exact moves_nextTarget _ _ _ _ output

theorem steady_admitParkedAt (change : W.Change) (index : ℕ) :
    Keeps Steady (admitParkedAt change index) := fun q => by
  unfold Leads admitParkedAt
  split <;> exact ⟨rfl, rfl⟩

theorem steady_admitTrackSettings (change : W.Change) (receivers : List (ℕ × When SessionFrame))
    (current : Option ℕ) : Keeps Steady (admitTrackSettings change receivers current) := by
  refine keeps_bind (keeps_forFold (fun sofar entry => ?_) receivers _) ?_
  · apply keeps_bind (steady_admitAt change entry)
    intro cost
    exact keeps_pure _
  rintro ⟨cost, moves⟩
  apply keeps_bind (keeps_read _)
  intro parked
  refine keeps_bind (keeps_forFold (fun sofar index => ?_) parked _) fun cost => keeps_pure _
  apply keeps_bind (steady_admitParkedAt change index)
  intro cost
  exact keeps_pure _

theorem steady_configureParkedAt (change : W.Change) (index : ℕ) :
    Keeps Steady (configureParkedAt change index) := fun q => by
  unfold Leads configureParkedAt
  split <;> exact ⟨rfl, rfl⟩

theorem steady_applyTrackSettings (change : W.Change) (receivers : List (ℕ × When SessionFrame))
    (current : Option ℕ) : Keeps Steady (applyTrackSettings change receivers current) := by
  refine keeps_bind (keeps_forFold (fun moved entry => ?_) receivers _) fun moved => ?_
  · apply keeps_bind (steady_applyAt entry.1 _)
    intro sent
    exact keeps_pure _
  apply keeps_bind (keeps_read _)
  intro parked
  apply keeps_bind (keeps_forEach (steady_configureParkedAt change) parked)
  intro _
  exact keeps_pure _

theorem steady_configureTracks (change : W.Change) (moment : When SessionFrame) :
    Keeps Steady (configureTracks change moment) := by
  apply keeps_bind (steady_asQueue (keeps_ofExcept _))
  intro change
  apply keeps_bind (keeps_read _)
  intro receivers
  apply keeps_ite
  · exact keeps_fail _
  · apply keeps_bind (keeps_read _)
    intro current
    apply keeps_bind (steady_asQueue (steady_admitTrackSettings change receivers current))
    rintro ⟨cost, moves⟩
    apply keeps_bind (keeps_read _)
    intro withdraw
    apply keeps_bind (keeps_read _)
    intro full
    split
    · exact keeps_fail _
    · apply keeps_bind (steady_asQueue (steady_applyTrackSettings change receivers current))
      intro moved
      refine keeps_bind (steady_update fun _ => ?_) fun _ => ?_
      · exact ⟨rfl, rfl⟩
      exact keeps_whenever fun _ => steady_withdrawAuto

theorem steady_configureQueue (moment : When SessionFrame) {change : Run W QueueError Unit}
    (hchange : Keeps Steady change) : Keeps Steady (configureQueue moment change) := by
  unfold configureQueue
  split
  · exact keeps_fail _
  · apply keeps_bind hchange
    intro _
    exact steady_withdrawTransition

theorem steady_configureCrossfade (settings : CrossfadeSettings) :
    Keeps Steady (configureCrossfade (W := W) settings) := by
  apply keeps_bind (steady_asQueue (keeps_ofExcept _))
  intro settings
  exact fun _ => ⟨rfl, rfl⟩

theorem moves_applyItems (output : Option W.Output) (command : QueueCommand W) :
    Keeps (Moves none) (applyItems output command) := by
  unfold applyItems
  split
  · refine keeps_bind (moves_aside fun _ => ?_) fun _ => ?_
    · rfl
    exact keeps_bind (moves_armInitialLoad output) fun _ => keeps_pure none
  · exact keeps_bind (moves_insertAfter _ _ _ output) fun _ => keeps_pure none
  · exact moves_removeEntry _ output
  · exact moves_clearEntries
  · apply keeps_bind moves_clearEntries
    intro _
    refine keeps_bind (keeps_forEach (fun entry => moves_aside fun _ => ?_) _) fun _ => ?_
    · rfl
    exact keeps_bind (moves_armInitialLoad output) fun _ => keeps_pure none
  · refine keeps_bind (moves_aside fun _ => ?_) fun _ => keeps_pure none
    rfl
  · apply keeps_bind (keeps_read _)
    intro clock
    split
    · exact keeps_pure none
    · exact keeps_bind (moves_tickWithOutput _ output) fun _ => keeps_pure none
  · exact moves_asQueue moves_closeTracks
  · exact keeps_pure none

theorem moves_applyQueueSettings (command : QueueCommand W) :
    Keeps (Moves none) (applyQueueSettings command) := by
  have hcancel : Keeps (Moves none) (do
      cancelAuto
      return none : Run W QueueError (Option Seq)) :=
    keeps_bind moves_cancelAuto fun _ => keeps_pure none
  unfold applyQueueSettings
  split
  · exact keeps_bind (moves_aside fun _ => rfl) fun _ => hcancel
  · exact keeps_bind (moves_aside fun _ => rfl) fun _ => hcancel
  · exact keeps_bind (moves_aside fun _ => rfl) fun _ => hcancel
  · exact moves_asQueue (keeps_moves (steady_outside _) none)
  · exact keeps_bind (keeps_moves (steady_configureQueue _ (steady_configureCrossfade _)) none)
      fun _ => keeps_pure none
  · refine keeps_bind (keeps_moves (steady_configureQueue _ fun _ => ?_) none) fun _ =>
      keeps_pure none
    exact ⟨rfl, rfl⟩
  · exact keeps_pure none

theorem steady_gainProgram (item : TrackId) (program : W.GainProgram) :
    Keeps Steady (gainProgram item program) := by
  apply keeps_bind (keeps_read _)
  intro index
  apply keeps_bind (steady_asQueue (keeps_require _ _))
  intro index
  exact steady_asQueue (steady_applyAt index _)

theorem moves_applyCommand (command : QueueCommand W) (output : Option W.Output) :
    Keeps (Moves none) (applyCommand command output) := by
  apply keeps_bind (keeps_moves (steady_validateCommand command) none)
  intro _
  cases command with
  | select id transition => exact moves_requestTransition _ output
  | next transition => exact moves_nextTarget _ _ _ _ output
  | previous transition =>
    apply keeps_bind (keeps_read _)
    intro previous
    split
    · exact keeps_pure none
    · exact moves_requestTransition _ output
  | play moment => exact moves_playAt moment output
  | pause moment => exact moves_pauseAt moment
  | seek position => exact keeps_moves (steady_seekTo position) none
  | configureTrack change moment =>
    exact keeps_bind (keeps_moves (steady_configureTracks change moment) none) fun _ =>
      keeps_pure none
  | gainProgram item program => exact keeps_moves (steady_gainProgram item program) none
  | append | insert | remove | removeAll | setTracks | load | tick | close =>
    exact moves_applyItems output _
  | setActionAtItemEnd | setPlaybackOrder | setRepeat | mix | configureCrossfade
  | configureGapless => exact moves_applyQueueSettings _

theorem moves_applyWithOutput (command : QueueCommand W) (output : Option W.Output) :
    Keeps (Moves none) (applyWithOutput command output) := by
  apply keeps_bind (keeps_attempt (moves_applyCommand command output))
  intro result
  apply keeps_bind (keeps_moves (steady_pumpLoads output) none)
  intro _
  apply keeps_bind (keeps_moves steady_publish none)
  intro _
  exact keeps_ofExcept result

theorem steady_setHostRate (rate : ℕ) : Keeps Steady (setHostRate (W := W) rate) := by
  apply keeps_bind (keeps_read _)
  intro loaded
  split
  · exact keeps_fail _
  · apply keeps_bind (keeps_read _)
    intro full
    split
    · exact keeps_fail _
    · apply keeps_bind (keeps_read _)
      intro len
      refine keeps_bind (keeps_forEach (fun index => ?_) _) fun _ => ?_
      · apply keeps_bind (keeps_read _)
        intro status
        split
        · exact keeps_pure ()
        · exact keeps_whenever fun _ => keeps_bind (steady_applyAt index _) fun _ => keeps_pure ()
      apply keeps_bind (keeps_read _)
      intro parked
      refine keeps_forEach (fun index q => ?_) _
      unfold Leads setHostRate.rateParkedAt
      split
      · exact ⟨rfl, rfl⟩
      · split
        · exact ⟨rfl, rfl⟩
        · exact ⟨rfl, rfl⟩

theorem moves_adoptPass (pass : HostPass W) (hadClock : Bool) :
    Keeps (Moves none) (adoptPass pass hadClock) := by
  refine keeps_bind (moves_aside fun q => ?_) fun _ => keeps_whenever fun _ => ?_
  · dsimp only
    split <;> rfl
  · apply keeps_bind (moves_armInitialLoad _)
    intro _
    exact keeps_moves (steady_pumpLoads _) none

theorem moves_acceptHostPass (pass : HostPass W) :
    Keeps (Moves none) (acceptHostPass pass) := by
  apply keeps_bind (keeps_read _)
  intro hadClock
  refine keeps_bind (moves_aside fun _ => ?_) fun _ => ?_
  · rfl
  apply keeps_bind (keeps_read _)
  intro changes
  split
  · apply keeps_bind (keeps_attempt (keeps_moves (steady_setHostRate _) none))
    intro answer
    cases answer with
    | error e => exact keeps_pure ()
    | ok _ => exact moves_adoptPass pass hadClock
  · exact moves_adoptPass pass hadClock

theorem moves_drainOne (command : QueueCommand W) (output : Option W.Output) :
    Keeps (Moves none) (drainOne command output) := by
  apply keeps_bind (keeps_attempt (keeps_moves (steady_validateCommand command) none))
  intro answer
  cases answer with
  | error e => exact keeps_bind (keeps_moves steady_publish none) fun _ => keeps_fail e
  | ok _ =>
    exact keeps_bind (moves_applyWithOutput command output) fun _ => keeps_pure ()

/-- What a call says of a batch. -/
def Call.answer : Call W → Option Answer
  | .settle receipt _ => receipt.answer
  | _ => none

theorem moves_perform (call : Call W) : Keeps (Moves call.answer) (perform call) := by
  cases call with
  | accept pass => exact moves_acceptHostPass pass
  | command command output => exact moves_drainOne command output
  | settle receipt output =>
    exact keeps_bind (moves_settleWithOutput receipt output) fun _ => keeps_pure ()
  | tick now output => exact moves_tickWithOutput now output
  | close =>
    apply keeps_bind (moves_asQueue moves_closeTracks)
    intro _
    exact keeps_moves steady_publish none

/-- A call of the queue is a stretch of moves on its board, whether it succeeds or not. -/
theorem moves_call (q : Queue W) (call : W.Out × Call W) : Moves call.2.answer q (q.call call) := by
  have hperform := moves_perform call.2 { q with out := call.1 }
  exact follows_trans (follows_of_eq rfl) hperform

end DeckQueue

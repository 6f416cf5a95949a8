import Kithara.QueueSeating

/-! What the ticks and the receipts of a deck's queue do on its board. Only a deck receipt of its batch
answers a pending handover, and only an applied one lets its entry take over. -/
namespace DeckQueue

open FollowedMoves
open MixerBoard (Board Seat Handover Move Sound isAhead)
open Navigation (TrackId AdvanceReason)
open CommandProtocol (When)
open QueueSlots QueueTracks StatefulPrograms StatefulPrograms.Program

variable {W : World} {ε α : Type}

theorem steady_repeatSegment : Keeps Steady (repeatSegment (W := W)) := by
  apply keeps_bind (keeps_read _)
  intro index
  apply keeps_bind (keeps_require _ _)
  intro index
  apply keeps_bind (keeps_read _)
  intro active
  apply keeps_bind (keeps_require _ _)
  intro active
  split
  · exact keeps_fail _
  · apply keeps_bind (steady_applyAt index _)
    intro sent
    exact keeps_require _ _

theorem moves_repeatOne (finish : SessionFrame) : Keeps (Moves none) (repeatOne (W := W) finish) := by
  apply keeps_bind (keeps_read _)
  intro full
  split
  · exact keeps_fail _
  · apply keeps_bind (keeps_moves steady_repeatSegment none)
    intro seq
    apply keeps_bind (keeps_read _)
    intro id
    apply keeps_bind (keeps_require _ _)
    intro id
    exact moves_aside fun _ => rfl

theorem moves_loadedTracks : Keeps (Moves none) (loadedTracks (W := W)) := by
  apply keeps_bind (keeps_read _)
  intro ready
  refine keeps_forEach (fun index => ?_) ready
  apply keeps_bind (keeps_moves (steady_finishLoad index) none)
  intro wanted
  split
  · exact moves_ignored moves_transitionLoaded
  · exact moves_asPlay moves_cancelTarget

theorem moves_refreshDeadline (target : Target) :
    Keeps (Moves none) (refreshDeadline (W := W) target) := by
  apply keeps_bind (keeps_read _)
  intro finish
  split
  · exact keeps_pure ()
  · apply keeps_bind (keeps_read _)
    intro repeats
    split
    · exact keeps_whenever fun _ => moves_asQueue (moves_repeatOne _)
    · split
      · apply keeps_bind (moves_asQueue (keeps_moves (steady_autoBound _) none))
        intro bound
        exact keeps_whenever fun _ => keeps_moves steady_withdrawAuto none
      · exact keeps_pure ()

theorem steady_releaseParked (id : TrackId) : Keeps Steady (releaseParked (W := W) id) := by
  apply keeps_bind (keeps_read _)
  intro parked
  refine keeps_forEach (fun index q => ?_) parked
  unfold Leads
  dsimp only
  split
  · exact ⟨rfl, rfl⟩
  · exact ⟨rfl, rfl⟩

theorem moves_preloadDeadlineTrack (id : TrackId) (output : Option W.Output) :
    Keeps (Moves none) (preloadDeadlineTrack id output) := by
  apply keeps_bind (keeps_attempt (moves_loadTrack id (.inr rfl) output))
  intro outcome
  cases outcome with
  | ok sent => exact keeps_pure ()
  | error e =>
    refine keeps_bind (keeps_whenever fun _ => ?_) fun _ => keeps_fail e
    apply keeps_bind (moves_asQueue (keeps_moves (steady_releaseParked id) none))
    intro _
    exact moves_aside fun _ => rfl

theorem moves_endQueue (q : Queue W) : Moves none q q.endQueue := by
  unfold Queue.endQueue
  split
  · exact moves_move .forget (permitted_of_plain rfl) (fun _ => trivial) fun _ => rfl
  · exact follows_of_eq rfl

theorem moves_enterNext (id : TrackId) (finish : SessionFrame) (output : Option W.Output) :
    Keeps (Moves none) (enterNext id finish output) := by
  apply keeps_bind (keeps_read _)
  intro gapless
  apply keeps_bind (keeps_read _)
  intro crossfade
  refine keeps_bind (moves_asQueue ?_) fun fade => ?_
  · split
    · exact keeps_pure _
    · exact keeps_moves (steady_fadeFrames _) none
  apply keeps_bind (keeps_read _)
  intro ready
  refine keeps_bind (moves_asQueue ?_) fun due => ?_
  · split
    · exact keeps_pure _
    · apply keeps_bind (keeps_moves steady_earliest none)
      intro frame
      exact keeps_pure _
  exact keeps_whenever fun _ => moves_ignored (moves_requestTransition _ output)

theorem moves_armNextDeadline (now : SessionFrame) (output : Option W.Output) :
    Keeps (Moves none) (armNextDeadline now output) := by
  apply keeps_bind (keeps_read _)
  intro last
  split
  · exact keeps_pure ()
  · apply keeps_bind (keeps_read _)
    intro finish
    split
    · exact keeps_pure ()
    · apply keeps_bind (keeps_moves (steady_drawNext _ _) none)
      intro id
      split
      · exact keeps_update moves_endQueue
      · refine keeps_bind (moves_asQueue ?_) fun lead => ?_
        · apply keeps_bind (keeps_read _)
          intro lead
          exact keeps_moves (steady_frames lead) none
        split
        · apply keeps_bind (keeps_read _)
          intro repeats
          split
          · exact moves_asQueue (moves_repeatOne _)
          · apply keeps_bind (moves_preloadDeadlineTrack _ output)
            intro _
            exact moves_enterNext _ _ output
        · exact moves_enterNext _ _ output

theorem moves_tickDeadlines (now : SessionFrame) (output : Option W.Output) :
    Keeps (Moves none) (tickDeadlines now output) := by
  apply keeps_bind (keeps_read _)
  intro shutdown
  split
  · exact keeps_pure ()
  · apply keeps_bind (moves_asQueue moves_releaseTails)
    intro _
    apply keeps_bind keeps_reapReleased
    intro _
    apply keeps_bind (moves_asQueue moves_loadedTracks)
    intro _
    apply keeps_bind (keeps_read _)
    intro action
    split
    · exact moves_cancelAuto
    · apply keeps_bind (keeps_read _)
      intro target
      split
      · exact moves_refreshDeadline _
      · exact moves_armNextDeadline now output

theorem board_failRejected (q : Queue W) (active : Active W.Track) (reason : Rejection PlayError) :
    (q.failRejected active reason).board = q.board := by
  unfold Queue.failRejected
  split
  · split <;> rfl
  · rfl

theorem moves_rejectLoad (index : ℕ) (reason : Rejection PlayError) (wanted : Bool) :
    Keeps (Moves none) (rejectLoad (W := W) index reason wanted) := by
  apply keeps_bind (keeps_read _)
  intro active
  apply keeps_bind (keeps_require _ _)
  intro active
  refine keeps_bind (moves_aside fun q => ?_) fun _ => ?_
  · exact Steady.board (steady_modify rfl rfl rfl rfl fun _ => rfl)
  apply keeps_bind (moves_aside fun q => board_failRejected q active reason)
  intro _
  apply keeps_bind (moves_releaseTrack index)
  intro _
  refine moves_aside fun q => ?_
  split <;> rfl

theorem moves_loadSettled (index : ℕ) (settled : Settled) :
    Keeps (Moves none) (loadSettled (W := W) index settled) := by
  apply keeps_bind (keeps_read _)
  intro active
  apply keeps_bind (keeps_require _ _)
  intro _
  apply keeps_bind (keeps_read _)
  intro wanted
  cases settled with
  | pending => exact keeps_pure ()
  | rejected seq reason => exact moves_rejectLoad index reason wanted
  | applied seq moment =>
    apply keeps_bind (keeps_moves (steady_finishLoad index) none)
    intro finished
    split
    · exact moves_ignored moves_transitionLoaded
    · exact keeps_whenever fun _ => moves_asPlay moves_cancelTarget

theorem moves_repeatSettled (seq : Seq) (settled : Settled) :
    Keeps (Moves none) (repeatSettled (W := W) seq settled) := by
  unfold repeatSettled
  split
  · exact moves_aside fun _ => rfl
  · exact moves_aside fun _ => rfl
  · exact moves_aside fun _ => rfl
  · exact moves_asPlay moves_cancelTarget

theorem leads_enterPaused {q : Queue W} {index : ℕ} {active : Active W.Track}
    (hget : q.active.get index = some active) (continued applied : Bool) :
    Leads (Moves none) (enterPaused index active continued applied) q := by
  apply leads_read_bind
  split
  case isFalse => exact leads_pure () q
  case isTrue hpaused =>
    simp only [Bool.and_eq_true, beq_iff_eq] at hpaused
    obtain ⟨⟨⟨_, hnamed⟩, hrole⟩, _⟩ := hpaused
    have htarget : q.target.map (·.item) = some active.item := by
      cases htarget : q.target with
      | none =>
        rw [htarget] at hnamed
        cases hnamed
      | some target =>
        rw [htarget] at hnamed
        simp only [Option.any_some, Bool.and_eq_true, beq_iff_eq] at hnamed
        exact congrArg some hnamed.1.2
    have hsteady : Steady q (q.setTarget ({ · with stale := none })) :=
      steady_withTarget fun _ => rfl
    refine leads_bind (hsteady.moves none) fun _ q₁ hset => ?_
    cases hset
    apply leads_read_bind
    refine leads_require_bind fun target _ => ?_
    refine leads_bind (keeps_moves steady_earliest none _) fun frame q₂ hframe => ?_
    have hsteady₂ := IsTrans.trans _ _ _ hsteady (steady_run steady_earliest hframe)
    obtain ⟨active₂, hget₂, hseat⟩ := hsteady₂.get_some hget
    refine moves_enterTarget hget₂ ((congrArg Seat.role hseat).trans hrole) ?_ frame target.reason
    rw [hsteady₂.target, htarget]
    exact congrArg some (congrArg Seat.item hseat).symm

theorem moves_pauseSettled (index : ℕ) (seq : Seq) (settled : Settled) :
    Keeps (Moves none) (pauseSettled (W := W) index seq settled) := fun q => by
  apply leads_read_bind
  refine leads_require_bind fun active hget => ?_
  apply leads_read_bind
  split
  · refine leads_bind (keeps_moves (steady_setTarget fun _ _ => ?_) none q) fun _ q₁ hset => ?_
    · rfl
    cases hset
    cases settled with
    | pending => exact leads_pure () _
    | applied _ moment => exact leads_enterPaused (q := q.setTarget _) hget true true
    | rejected _ reason =>
      cases reason with
      | late => exact leads_pure () _
      | stale => exact leads_pure () _
      | unanswered => exact moves_asPlay moves_cancelTarget _
      | refused error => exact moves_asPlay moves_cancelTarget _
  · exact leads_enterPaused hget false _

theorem moves_adopt {q : Queue W} {index : ℕ} {active : Active W.Track}
    (hget : q.active.get index = some active) : Moves none q (q.adopt active) := by
  unfold Queue.adopt
  split_ifs with h
  case neg => exact follows_of_eq rfl
  case pos =>
    simp only [Bool.and_eq_true, Option.isNone_iff_eq_none, beq_iff_eq] at h
    obtain ⟨⟨hnone, hcur⟩, _⟩ := h
    refine moves_move (.adopt active.item) (permitted_of_plain rfl) (fun hsound => ?_)
      fun _ => rfl
    refine ⟨hnone, seat active, ?_, hcur, rfl⟩
    rw [Slots.get] at hget
    split at hget
    · -- A staged entry is never the current one.
      exact absurd hcur (hsound.staged _ (List.mem_map_of_mem (List.mem_of_getElem? hget)))
    · exact List.mem_map_of_mem (List.mem_of_getElem? hget)

theorem moves_transitionSettled (index : ℕ) (settled : Settled) :
    Keeps (Moves none) (transitionSettled (W := W) index settled) := fun q => by
  unfold transitionSettled
  split
  · exact leads_pure () q
  · apply leads_read_bind
    cases hget : q.active.get index with
    | none => exact leads_pure () q
    | some active =>
      apply leads_read_bind
      split
      · exact moves_repeatSettled _ settled q
      · split
        · exact moves_loadSettled index settled q
        · refine leads_bind ?_ fun _ q' _ => moves_pauseSettled index _ settled q'
          change Moves none q _
          cases settled with
          | pending => exact follows_of_eq rfl
          | applied seq moment => exact moves_adopt hget
          | rejected seq reason => exact follows_of_eq rfl

theorem moves_settleOutcome (result : Settled) (outcome : ℕ × Settled) :
    Keeps (Moves none) (settleOutcome (W := W) result outcome) := by
  apply keeps_bind (keeps_read _)
  intro loading
  apply keeps_bind (keeps_read _)
  intro rescheduling
  apply keeps_bind (keeps_attempt (moves_transitionSettled _ _))
  intro answer
  cases answer with
  | ok _ => exact keeps_read _
  | error e =>
    dsimp only
    split
    · exact keeps_pure _
    · exact keeps_pure _

theorem moves_settleTransitions (outcomes : List (ℕ × Settled)) :
    Keeps (Moves none) (settleTransitions (W := W) outcomes) :=
  keeps_forFold moves_settleOutcome outcomes _

def Settled.answer : Settled → Option Answer
  | .applied seq _ => some ⟨seq, true⟩
  | .rejected seq _ => some ⟨seq, false⟩
  | .pending => none

theorem moves_commitHandover (seq : Seq) (index : ℕ) (moment : SessionFrame) :
    Keeps (Moves (some ⟨seq, true⟩)) (commitHandover (W := W) seq index moment) := by
  apply keeps_bind (moves_transitionApplied seq index moment)
  intro _
  refine keeps_update fun q => moves_permitted ?_ _
  split
  · exact follows_of_eq rfl
  · split
    · exact follows_of_eq rfl
    · split
      · exact follows_of_eq rfl
      case h_2 requested hfind =>
        obtain ⟨active, hget, hrole⟩ := get_of_position hfind
        rw [Bool.and_eq_true, beq_iff_eq, beq_iff_eq] at hrole
        refine moves_assign hget (.inl rfl) ?_ ?_
        · rw [hrole.2]
          decide
        · rw [hrole.2]
          decide

theorem moves_recoverHandover (index : ℕ) (seq : Seq) (reason : Rejection PlayError) :
    Keeps (Moves none) (recoverHandover (W := W) index seq reason) := by
  apply keeps_bind (keeps_read _)
  intro withdrawn
  split
  · apply keeps_bind (keeps_read _)
    intro paused
    split
    · apply keeps_bind (keeps_read _)
      intro active
      apply keeps_bind (keeps_require _ _)
      intro active
      refine keeps_whenever fun _ => keeps_moves (steady_setTarget fun _ _ => ?_) none
      rfl
    · refine keeps_moves (steady_setTarget fun _ _ => ?_) none
      rfl
  · split
    · apply keeps_bind (keeps_moves steady_earliest none)
      intro frame
      refine keeps_moves (steady_setTarget fun _ _ => ?_) none
      rfl
    · exact moves_asPlay moves_cancelTarget

theorem leads_answered {q : Queue W} {pending : PendingHandover}
    (hpending : q.pendingHandover = some pending) (applied : Bool) :
    Leads (Moves (some ⟨pending.seq, applied⟩))
      (update ({ · with pendingHandover := none }) : Run W ε Unit) q :=
  moves_answered hpending applied

theorem leads_rejectHandover {q : Queue W} {pending : PendingHandover}
    (hpending : q.pendingHandover = some pending) (index : ℕ) (reason : Rejection PlayError) :
    Leads (Moves (some ⟨pending.seq, false⟩)) (rejectHandover pending.seq index reason) q := by
  refine leads_bind (leads_answered hpending false) fun _ q₁ _ => ?_
  have hrest : Keeps (Moves none) (do
      let active ← require .noActiveSlot (← read (·.active.get index))
      if ← read fun q => q.target.all (·.item != active.item) then
        let gone ← read fun q => decide (q.current ≠ some active.item ∧ active.role ≠ .leaving)
        whenever gone do
          let _ ← releaseTrack index
          return ()
      else recoverHandover index pending.seq reason : Run W PlayError Unit) := by
    apply keeps_bind (keeps_read _)
    intro active
    apply keeps_bind (keeps_require _ _)
    intro active
    apply keeps_bind (keeps_read _)
    intro other
    split
    · apply keeps_bind (keeps_read _)
      intro gone
      exact keeps_whenever fun _ => moves_ignored (moves_releaseTrack index)
    · exact moves_recoverHandover index pending.seq reason
  exact keeps_permitted hrest _ q₁

theorem abandonRemovalEntry_pending (q : Queue W) :
    (abandonRemovalEntry q).2.pendingHandover = q.pendingHandover := by
  unfold abandonRemovalEntry update
  dsimp only
  split
  · rfl
  · split <;> rfl

theorem handover_pending {q : Queue W} {seq : Seq}
    (h : ¬ (q.pendingHandover.all (·.seq != seq)) = true) :
    ∃ pending, q.pendingHandover = some pending ∧ pending.seq = seq := by
  cases hpending : q.pendingHandover with
  | none =>
    rw [hpending] at h
    exact absurd rfl h
  | some pending => exact ⟨pending, rfl, by simpa [hpending] using h⟩

theorem moves_handoverSettled (index : Option ℕ) (settled : Settled) :
    Keeps (Moves settled.answer) (handoverSettled (W := W) index settled) := fun q => by
  cases settled with
  | pending => exact leads_pure () q
  | applied seq moment =>
    apply leads_read_bind
    split
    · exact leads_pure () q
    case isFalse hother =>
      obtain ⟨pending, hpending, rfl⟩ := handover_pending hother
      cases index with
      | none => exact leads_answered hpending true
      | some index => exact moves_commitHandover pending.seq index moment q
  | rejected seq reason =>
    apply leads_read_bind
    split
    · exact leads_pure () q
    case isFalse hother =>
      obtain ⟨pending, hpending, rfl⟩ := handover_pending hother
      apply leads_read_bind
      refine leads_bind (keeps_permitted (keeps_whenever fun _ => moves_abandonRemovalEntry) _ q)
        fun _ q₁ habandon => ?_
      have hpending₁ : q₁.pendingHandover = some pending := by
        rw [← hpending]
        unfold whenever at habandon
        split at habandon
        · rw [← abandonRemovalEntry_pending q, habandon]
        · cases habandon
          rfl
      cases index with
      | none => exact leads_answered hpending₁ false
      | some index => exact leads_rejectHandover hpending₁ index reason

theorem steady_applyRemoval (seq : Seq) (batch : Batch) :
    Keeps Steady (update (·.applyRemoval seq batch) : Run W ε Unit) :=
  fun q => steady_withTarget fun target => by
    split
    · split <;> rfl
    · rfl

theorem moves_settleDeckReceipt (seq : Seq) (outcome : DeckOutcome) (batch : Batch) :
    Keeps (Moves none) (settleDeckReceipt (W := W) seq outcome batch) := by
  apply keeps_bind (keeps_read _)
  intro removal
  apply keeps_bind (keeps_read _)
  intro handover
  refine keeps_bind (keeps_moves (keeps_bind (keeps_read _) fun named =>
    keeps_forFold (steady_settleDeckAt seq outcome) named _) none) fun settlement => ?_
  apply keeps_bind (keeps_whenever fun _ => keeps_moves (steady_applyRemoval seq _) none)
  intro _
  cases outcome with
  | applied moment => exact keeps_pure _
  | rejected reason =>
    refine keeps_bind (keeps_whenever fun _ => ?_) fun _ => keeps_pure _
    apply keeps_bind (keeps_read _)
    intro removed
    split
    · exact moves_abandonRemovalEntry
    · exact keeps_bind (keeps_attempt moves_cancelTarget) fun _ => keeps_pure ()

theorem steady_classifyLoad (id : TrackId) (leaving wanted : Bool) (outcome : LoadOutcome) :
    Keeps Steady (classifyLoad (W := W) id leaving wanted outcome) := fun q => by
  unfold Leads classifyLoad
  split
  · exact ⟨rfl, rfl⟩
  · split
    · exact ⟨rfl, rfl⟩
    · exact ⟨rfl, rfl⟩
    · exact ⟨rfl, rfl⟩
    · exact ⟨rfl, rfl⟩
    · exact ⟨rfl, rfl⟩
    · dsimp only
      split <;> exact ⟨rfl, rfl⟩

theorem steady_announceLoaded (q : Queue W) (id : TrackId) : Steady q (q.announceLoaded id) := by
  unfold Queue.announceLoaded
  dsimp only
  split
  · split <;> exact ⟨rfl, rfl⟩
  · exact ⟨rfl, rfl⟩

theorem steady_acceptLoad (q : Queue W) (index : ℕ) (seq : Seq) :
    Steady q (q.acceptLoad index seq) := by
  unfold Queue.acceptLoad
  split
  · exact ⟨rfl, rfl⟩
  · dsimp only
    split
    · exact steady_modify rfl rfl rfl rfl fun _ => rfl
    · refine IsTrans.trans _ _ _ ?_ (steady_announceLoaded _ _)
      exact steady_modify rfl rfl rfl rfl fun _ => rfl

theorem steady_reopenRequestedLoad (index : ℕ) (output : Option W.Output) :
    Keeps Steady (reopenRequestedLoad index output) := by
  apply keeps_bind (keeps_read _)
  intro active
  apply keeps_bind (steady_asQueue (keeps_require _ _))
  intro active
  apply keeps_bind (keeps_read _)
  intro record
  apply keeps_bind (keeps_require _ _)
  intro record
  apply keeps_bind (steady_startLoader _ _ output _)
  rintro ⟨item, token⟩
  apply keeps_bind (steady_asQueue (steady_applyAt index _))
  intro seq
  exact fun q => steady_modify rfl rfl rfl rfl fun _ => rfl

theorem steady_settleParked (index : ℕ) (seq : Seq) (outcome : LoadOutcome) :
    Keeps Steady (settleParked (W := W) index seq outcome) := by
  apply keeps_bind (keeps_read _)
  intro parked
  split
  · exact keeps_pure ()
  · split
    · refine fun q => ?_
      unfold Leads update
      dsimp only
      split
      · exact ⟨rfl, rfl⟩
      · refine IsTrans.trans _ _ _ ?_ (steady_announceLoaded _ _)
        exact ⟨rfl, rfl⟩
    · apply keeps_bind (steady_classifyLoad _ _ _ _)
      intro _
      exact fun q => ⟨rfl, rfl⟩

theorem steady_settleOpened (index : ℕ) (active : Active W.Track) (seq : Seq)
    (outcome : LoadOutcome) (output : Option W.Output) :
    Keeps Steady (settleOpened index active seq outcome output) := by
  apply keeps_bind (keeps_read _)
  intro wanted
  apply keeps_bind (steady_classifyLoad _ _ _ _)
  intro later
  apply keeps_bind (steady_settleLoadedAt index seq outcome)
  intro settled
  split
  · apply keeps_bind (keeps_attempt (steady_reopenRequestedLoad index output))
    intro answer
    cases answer with
    | ok _ => exact keeps_pure _
    | error e => exact keeps_pure _
  · refine keeps_bind (fun q => ?_) fun _ => keeps_pure _
    change Steady q (if outcome.isApplied then q.acceptLoad index seq else q)
    split
    · exact steady_acceptLoad q index seq
    · exact ⟨rfl, rfl⟩

theorem steady_settleLoadedReceipt (seq : Seq) (outcome : LoadOutcome) (output : Option W.Output) :
    Keeps Steady (settleLoadedReceipt seq outcome output) := by
  refine keeps_bind ?_ fun outcomes => ?_
  · apply keeps_bind (keeps_read _)
    intro index
    split
    · apply keeps_bind (keeps_read _)
      intro active
      split
      · exact keeps_pure _
      · exact steady_settleOpened _ _ seq outcome output
    · apply keeps_bind (keeps_read _)
      intro parked
      split
      · apply keeps_bind (steady_settleParked _ seq outcome)
        intro _
        exact keeps_pure _
      · exact keeps_pure _
  · apply keeps_bind (steady_asPlay (steady_pumpLoads output))
    intro _
    exact keeps_pure _

theorem moves_itemFailed (id : TrackId) (fault : String) (output : Option W.Output) :
    Keeps (Moves none) (itemFailed id fault output) := by
  apply keeps_bind (keeps_read _)
  intro other
  split
  · exact keeps_pure ()
  · refine keeps_bind (moves_aside fun _ => ?_) fun _ => ?_
    · rfl
    apply keeps_bind (keeps_read _)
    intro advance
    split
    · apply keeps_bind (keeps_attempt (moves_nextTarget _ _ _ _ output))
      intro answer
      split
      · exact keeps_update fun q => moves_move .forget (permitted_of_plain rfl)
          (fun _ => trivial) fun _ => rfl
      · exact keeps_pure ()
    · exact keeps_pure ()

theorem moves_itemEnded (slot : Slot) (moment : SessionFrame) (output : Option W.Output) :
    Keeps (Moves none) (itemEnded slot moment output) := by
  apply keeps_bind (keeps_read _)
  intro active
  split
  · exact keeps_pure ()
  · split
    · apply keeps_bind (keeps_read _)
      intro current
      apply keeps_bind (keeps_read _)
      intro action
      refine keeps_bind (keeps_whenever fun _ => ?_) fun _ => keeps_whenever fun _ => ?_
      · exact keeps_bind (keeps_attempt (keeps_moves (steady_transport _) none)) fun _ =>
          keeps_pure ()
      · exact keeps_bind (keeps_attempt (moves_tickDeadlines moment output)) fun _ => keeps_pure ()
    · exact keeps_pure ()

theorem moves_itemEvent (event : DeckEvent) (output : Option W.Output) :
    Keeps (Moves none) (itemEvent event output) := by
  unfold itemEvent
  split
  · apply keeps_bind (keeps_read _)
    intro active
    split
    · exact keeps_pure ()
    · split
      · exact moves_itemFailed _ _ output
      · exact keeps_pure ()
  · exact moves_itemEnded _ _ output
  · exact keeps_pure ()

theorem steady_settleHeldPosition : Keeps Steady (settleHeldPosition (W := W)) := fun q => by
  unfold Leads settleHeldPosition
  split
  · split
    · exact ⟨rfl, rfl⟩
    · split
      · exact ⟨rfl, rfl⟩
      · split
        · exact ⟨rfl, rfl⟩
        · split
          · dsimp only
            split
            · exact steady_modify rfl rfl rfl rfl fun _ => rfl
            · exact steady_modify rfl rfl rfl rfl fun _ => rfl
          · dsimp only
            split <;> exact ⟨rfl, rfl⟩
  · exact ⟨rfl, rfl⟩

theorem steady_publish : Keeps Steady (publish (W := W)) := by
  apply keeps_bind (steady_asQueue steady_settleHeldPosition)
  intro _
  refine keeps_bind ?_ fun upcoming => fun q => ⟨rfl, rfl⟩
  apply keeps_bind (keeps_read _)
  intro target
  split
  · exact keeps_pure _
  · exact steady_drawNext _ _

theorem moves_collectOutcomes (output : Option W.Output) (receipt : TrackReceipt) :
    Keeps (Moves none) (collectOutcomes output receipt) := by
  cases receipt with
  | deck seq outcome batch => exact moves_settleDeckReceipt seq outcome batch
  | event event =>
    apply keeps_bind (keeps_read _)
    intro named
    apply keeps_bind (keeps_moves (keeps_forFold (steady_settleEventAt event) named _) none)
    intro outcomes
    apply keeps_bind (moves_itemEvent event output)
    intro _
    exact keeps_pure _
  | loaded seq outcome =>
    apply keeps_bind (keeps_moves (steady_settleLoadedReceipt seq outcome output) none)
    intro outcomes
    exact keeps_pure _

/-- What a receipt of the owner says of a batch. -/
def TrackReceipt.answer : TrackReceipt → Option Answer
  | .deck seq (.applied _) _ => some ⟨seq, true⟩
  | .deck seq (.rejected _) _ => some ⟨seq, false⟩
  | _ => none

theorem settleHandover_batch {q : Queue W} {seq : Seq} {outcome : DeckOutcome} {batch : Batch}
    {index : Option ℕ} {settled : Settled}
    (h : q.settleHandover seq outcome batch = some (index, settled)) :
    settled = outcome.settled seq := by
  unfold Queue.settleHandover at h
  split at h
  · cases h
  · split at h
    · cases h
    · cases h
      rfl

/-- Only a deck receipt settles a handover, and it settles it by its own outcome. -/
theorem collectOutcomes_answer {output : Option W.Output} {receipt : TrackReceipt} {q q' : Queue W}
    {settlement : DeckSettlement} (hrun : collectOutcomes output receipt q = (.ok settlement, q'))
    {index : Option ℕ} {settled : Settled} (h : settlement.handover = some (index, settled)) :
    settled.answer = receipt.answer := by
  cases receipt with
  | event event =>
    rw [collectOutcomes, read_bind] at hrun
    obtain ⟨outcomes, q₁, _, hevent⟩ := bind_run hrun
    obtain ⟨_, q₂, _, hend⟩ := bind_run hevent
    cases hend
    cases h
  | loaded seq outcome =>
    obtain ⟨outcomes, q₁, _, hend⟩ := bind_run hrun
    cases hend
    cases h
  | deck seq outcome batch =>
    obtain ⟨removal, q₁, _, hrun₁⟩ := bind_run hrun
    obtain ⟨handover, q₂, hread, hrun₂⟩ := bind_run hrun₁
    obtain ⟨outcomes, q₃, _, hrun₃⟩ := bind_run hrun₂
    obtain ⟨_, q₄, _, hrun₄⟩ := bind_run hrun₃
    cases hread
    cases outcome with
    | applied moment =>
      cases hrun₄
      rw [settleHandover_batch h]
      rfl
    | rejected reason =>
      obtain ⟨_, q₅, _, hend⟩ := bind_run hrun₄
      cases hend
      rw [settleHandover_batch h]
      rfl

theorem moves_settlePass {settlement : DeckSettlement} {answer : Option Answer}
    (h : ∀ index settled, settlement.handover = some (index, settled) → settled.answer = answer)
    (trackResult : Settled) :
    Keeps (Moves answer) (settlePass (W := W) settlement trackResult) := by
  unfold settlePass
  split
  case h_1 index settled hhandover =>
    rw [← h index settled hhandover]
    apply keeps_bind (keeps_attempt (moves_handoverSettled index settled))
    intro answer
    cases answer with
    | ok _ => exact keeps_pure _
    | error e =>
      dsimp only
      split
      · exact keeps_pure _
      · exact keeps_pure _
  case h_2 => exact keeps_pure _

theorem moves_settleWithOutput (receipt : TrackReceipt) (output : Option W.Output) :
    Keeps (Moves receipt.answer) (settleWithOutput receipt output) := fun q => by
  have hquiet : ∀ {ε α : Type} {p : Run W ε α}, Keeps (Moves none) p →
      Keeps (Moves receipt.answer) p := fun hp => keeps_permitted hp _
  refine leads_bind (hquiet (moves_asQueue (moves_collectOutcomes output receipt)) q)
    fun settlement q₁ hcollect => ?_
  have hanswer : ∀ index settled, settlement.handover = some (index, settled) →
      settled.answer = receipt.answer := fun _ _ => collectOutcomes_answer (mapError_run hcollect)
  refine keeps_bind (hquiet (moves_asQueue (moves_settleTransitions _))) (fun trackResult => ?_) q₁
  apply keeps_bind (moves_asQueue (moves_settlePass hanswer trackResult))
  intro result
  apply keeps_bind (hquiet (keeps_attempt moves_releaseTails))
  intro _
  apply keeps_bind (hquiet (keeps_attempt moves_transitionLoaded))
  intro _
  apply keeps_bind (hquiet keeps_reapReleased)
  intro _
  apply keeps_bind (keeps_moves steady_publish _)
  intro _
  exact keeps_pure _

theorem moves_tickWithOutput (now : SessionFrame) (output : Option W.Output) :
    Keeps (Moves none) (tickWithOutput now output) := by
  apply keeps_bind (keeps_read _)
  intro parked
  refine keeps_bind (moves_aside fun _ => ?_) fun _ => ?_
  · rfl
  apply keeps_bind (keeps_read _)
  intro len
  apply keeps_bind (keeps_moves (keeps_forEach (steady_tickAt now) _) none)
  intro _
  apply keeps_bind (keeps_moves (keeps_forEach (steady_tickParkedAt now) _) none)
  intro _
  apply keeps_bind (keeps_attempt (moves_tickDeadlines now output))
  intro _
  apply keeps_bind (keeps_attempt moves_transitionLoaded)
  intro _
  apply keeps_bind keeps_reapReleased
  intro _
  apply keeps_bind (keeps_read _)
  intro left
  apply keeps_bind (keeps_whenever fun _ => keeps_moves (steady_pumpLoads output) none)
  intro _
  exact keeps_moves steady_publish none

end DeckQueue

import Kithara.QueueMoves

/-! What a deck's queue does on its board when an entry takes over: the current entry makes way, the
incoming one enters for a pause or by the batch that hands over to it, and only a prepared target
sends such a batch. -/
namespace DeckQueue

open FollowedMoves
open MixerBoard (Board Seat Handover Move Sound)
open Navigation (TrackId AdvanceReason)
open CommandProtocol (When)
open QueueSlots QueueTracks StatefulPrograms StatefulPrograms.Program

variable {W : World} {ε α : Type}

theorem current_seated {q : Queue W} (hsound : Sound q.board) {index : ℕ}
    (h : q.activeCurrentIndex = some index) : ∃ active, q.active.get index = some active ∧
      active.role = .current ∧ q.board.seated[index]? = some (seat active) := by
  obtain ⟨active, hget, hrole⟩ := get_of_position h
  have hcur : active.role = .current := by simpa using hrole
  refine ⟨active, hget, hcur, ?_⟩
  by_cases hle : q.active.active.length ≤ index
  · -- A staged entry is never the current one.
    have hmem : seat active ∈ q.board.staged := by
      rw [Slots.get, if_pos hle] at hget
      exact List.mem_map_of_mem (List.mem_of_getElem? hget)
    exact absurd hcur (hsound.staged _ hmem)
  · exact seated_of_get hget (by omega)

theorem none_current {q : Queue W} (h : q.activeCurrentIndex = none) :
    ∀ e ∈ q.board.seated, e.role ≠ .current := fun e he => by
  obtain ⟨active, hactive, rfl⟩ := List.mem_map.mp he
  have hfind := none_of_position h active (List.mem_append_left _ hactive)
  exact beq_eq_false_iff_ne.mp hfind

theorem board_demoteCurrent {q : Queue W} (hsound : Sound q.board) :
    q.demoteCurrent.board = q.board.demote := by
  unfold Queue.demoteCurrent
  cases h : q.activeCurrentIndex with
  | none => exact (MixerBoard.demote_idle (none_current h)).symm
  | some current =>
    obtain ⟨active, _, hcur, hseated⟩ := current_seated hsound h
    exact (board_setRole q current .outgoing).trans (MixerBoard.demote_modify hsound hseated hcur)

/-- The entry that sounds makes way, with a fade in its slot unless the new one is chained to it. -/
theorem fadeCurrent_board {q q' : Queue W} (hsound : Sound q.board) (target : Target)
    (moment : SessionFrame) {outcome : Except PlayError Unit}
    (hrun : fadeCurrent target moment q.activeCurrentIndex q = (outcome, q')) :
    MixerBoard.Cleared q.board q'.board := by
  cases hcurrent : q.activeCurrentIndex with
  | none =>
    rw [hcurrent] at hrun
    cases hrun
    exact .inl (MixerBoard.demote_idle (none_current hcurrent)).symm
  | some current =>
    obtain ⟨active, hget, hcur, hseated⟩ := current_seated hsound hcurrent
    have hdemote : (q.setRole current .outgoing).board = q.board.demote :=
      (board_setRole q current .outgoing).trans (MixerBoard.demote_modify hsound hseated hcur)
    have hrest : fadeCurrent target moment (some current) q =
        whenever (target.chained = false) (do
          let fade ← fadeFrames target.settings.duration
          update fun q => { q with active := q.active.fadeOut active.slot (addFrames moment fade) })
          (q.setRole current .outgoing) := by
      rw [fadeCurrent, read_bind, hget]
      rfl
    rw [hcurrent, hrest, whenever] at hrun
    split at hrun
    case isFalse =>
      cases hrun
      exact .inl hdemote
    case isTrue =>
      rcases hfade : fadeFrames target.settings.duration (q.setRole current .outgoing)
        with ⟨_ | fade, q''⟩
      · rw [bind_error hfade] at hrun
        cases hrun
        exact .inl ((steady_run (steady_fadeFrames _) hfade).board.trans hdemote)
      · rw [bind_ok hfade] at hrun
        cases hrun
        have hboard := (steady_run (steady_fadeFrames _) hfade).board.trans hdemote
        refine .inr ⟨active.slot.toNat, addFrames moment fade, ⟨(seat active).put .outgoing, ?_, rfl,
          rfl⟩, congrArg (MixerBoard.step · (.fade active.slot.toNat (addFrames moment fade))) hboard⟩
        refine List.mem_map.mpr ⟨seat active, List.mem_of_getElem? hseated, ?_⟩
        exact if_pos (beq_iff_eq.mpr hcur)

theorem board_promote {q : Queue W} {index : ℕ} {active : Active W.Track}
    (hget : q.active.get index = some active) (reason : AdvanceReason) :
    (q.promote index active.item reason).board = q.board.enter index :=
  view_activate hget q.current q.pendingHandover

theorem board_announceEntry (q : Queue W) (target : Target) (crossfading : Bool)
    (reason : AdvanceReason) : (q.announceEntry target crossfading reason).board = q.board := by
  unfold Queue.announceEntry
  dsimp only
  split <;> rfl

/-- An entry with the target's item enters once the current one has made way, unless it fails. -/
theorem enterTarget_board {q : Queue W} (hsound : Sound q.board) {index : ℕ}
    {active : Active W.Track} (hget : q.active.get index = some active)
    (htarget : q.target.map (·.item) = some active.item) (moment : SessionFrame)
    (reason : AdvanceReason) : ∃ b, MixerBoard.Cleared q.board b ∧
      ((enterTarget index moment reason q).2.board = b ∨
        (enterTarget index moment reason q).2.board = b.enter index) := by
  obtain ⟨target, htarget, hitem⟩ := Option.map_eq_some_iff.mp htarget
  have hrest : ∃ crossfading, enterTarget index moment reason q =
      (fadeCurrent target moment q.activeCurrentIndex >>= fun _ =>
        update fun q => (q.promote index target.item reason).announceEntry target crossfading reason)
        q := by
    refine ⟨(q.activeCurrentIndex.bind q.active.get).any (·.slot != active.slot), ?_⟩
    simp only [enterTarget, read_bind, htarget, require, Program.pure_bind, hget]
  obtain ⟨crossfading, hrest⟩ := hrest
  rw [hrest]
  rcases hfade : fadeCurrent target moment q.activeCurrentIndex q with ⟨_ | _, q'⟩
  · rw [bind_error hfade]
    exact ⟨q'.board, fadeCurrent_board hsound target moment hfade, .inl rfl⟩
  · rw [bind_ok hfade]
    have hcleared := fadeCurrent_board hsound target moment hfade
    obtain ⟨e, he, heitem, _⟩ := MixerBoard.cleared_entry hcleared (board_entry hget)
    obtain ⟨active', hget', rfl⟩ := get_of_board he
    have hitem' : target.item = active'.item := hitem.trans heitem.symm
    refine ⟨q'.board, hcleared, .inr ?_⟩
    change ((q'.promote index target.item reason).announceEntry target crossfading reason).board = _
    rw [board_announceEntry, hitem', board_promote hget']

theorem follows_cleared {q q' : Queue W} (h : MixerBoard.Cleared q.board q'.board)
    (answer : Option Answer) : Moves answer q q' := fun _ => by
  obtain ⟨moves, hplain, hv, heq⟩ := MixerBoard.cleared_moves h
  exact ⟨moves, fun move hmove => permitted_of_plain (hplain move hmove), hv, heq⟩

theorem follows_enter {q q' : Queue W} {b : Board TrackId SessionFrame}
    (hcleared : MixerBoard.Cleared q.board b) {answer : Option Answer} {index : ℕ}
    {cause : MixerBoard.Cause} (hpermitted : Permitted answer (.enter index cause))
    (he : MixerBoard.Enabled b (.enter index cause))
    (h : q'.board = MixerBoard.step b (.enter index cause)) : Moves answer q q' := fun _ => by
  obtain ⟨moves, hplain, hv, heq⟩ := MixerBoard.cleared_moves hcleared
  refine ⟨moves ++ [.enter index cause], fun move hmove => ?_, ?_, ?_⟩
  · rcases List.mem_append.mp hmove with hmove | hmove
    · exact permitted_of_plain (hplain move hmove)
    · rwa [List.mem_singleton.mp hmove]
  · exact TransitionSystem.validTrace_append.mpr ⟨hv, heq ▸ he, trivial⟩
  · rw [TransitionSystem.runTrace_append, ← heq]
    exact h

/-- An incoming entry may enter for a pause. -/
theorem moves_enterTarget {q : Queue W} {index : ℕ} {active : Active W.Track}
    (hget : q.active.get index = some active) (hrole : active.role = .incoming)
    (htarget : q.target.map (·.item) = some active.item) (moment : SessionFrame)
    (reason : AdvanceReason) : Leads (Moves none) (enterTarget index moment reason) q :=
  fun hsound => by
    obtain ⟨b, hcleared, hboard | hboard⟩ := enterTarget_board hsound hget htarget moment reason
    · exact follows_cleared (hboard ▸ hcleared) none hsound
    · have hlets : MixerBoard.Lets q.board index (seat active) .pause := hrole
      exact follows_enter hcleared (show Permitted none (.enter index .pause) from trivial)
        (MixerBoard.cleared_lets hcleared (board_entry hget) hlets) hboard hsound

def Queue.answered (q : Queue W) : Queue W := { q with pendingHandover := none }

theorem board_pending {q : Queue W} {pending : PendingHandover}
    (hpending : q.pendingHandover = some pending) : q.board.pending = some pending.handover := by
  rw [Queue.board, view, hpending]
  rfl

/-- The pending handover is answered and gone. -/
theorem moves_answered {q : Queue W} {pending : PendingHandover}
    (hpending : q.pendingHandover = some pending) (applied : Bool) :
    Moves (some ⟨pending.seq, applied⟩) q q.answered :=
  moves_move (.answer pending.seq) ⟨applied, rfl⟩
    (fun _ => ⟨pending.handover, board_pending hpending, rfl⟩) fun _ => rfl

theorem answered_sound {q : Queue W} (h : Sound q.board) : Sound q.answered.board := { h with }

/-- What the pending handover names takes over with the current entry out of the way. -/
theorem follows_handover {q q' : Queue W} {pending : PendingHandover}
    (hpending : q.pendingHandover = some pending) {index : ℕ} {active : Active W.Track}
    (hget : q.active.get index = some active) (hhands : q.handsOver pending index active = true)
    {b : Board TrackId SessionFrame} (hcleared : MixerBoard.Cleared q.answered.board b)
    (h : q'.board = b.enter index) : Moves (some ⟨pending.seq, true⟩) q q' := by
  have hexpects := MixerBoard.cleared_expecting hcleared (some pending.handover)
  have hsame : q.answered.board.expecting (some pending.handover) = q.board := by
    change _ = view q.active q.current q.pendingHandover
    rw [hpending]
    rfl
  rw [hsame] at hexpects
  simp only [Queue.handsOver, Bool.and_eq_true, beq_iff_eq] at hhands
  obtain ⟨⟨hitem, hslot⟩, hreplacement⟩ := hhands
  have hlets : MixerBoard.Lets q.board index (seat active) (.handover pending.seq) := by
    refine ⟨pending.handover, board_pending hpending, rfl, hitem.symm,
      congrArg UInt16.toNat hslot.symm, ?_⟩
    rw [isReplacement_of_get hget] at hreplacement
    rw [PendingHandover.handover, ← hreplacement, decide_eq_true_iff]
    simp [Queue.board, view]
  refine follows_enter hexpects (show Permitted _ (.enter index (.handover pending.seq)) from rfl)
    (MixerBoard.cleared_lets hexpects (board_entry hget) hlets) ?_
  have hnone : (b.enter index).pending = none := by
    rw [MixerBoard.enter_pending, (MixerBoard.cleared_same hcleared).2.2]
    rfl
  rw [h, MixerBoard.step, MixerBoard.enter_expecting]
  simp only [Board.expecting, ← hnone]

theorem board_takeOver {q : Queue W} (hsound : Sound q.board) {index : ℕ}
    {active : Active W.Track} (hget : q.active.get index = some active) (reason : AdvanceReason) :
    (q.takeOver index active.item reason).board = q.board.demote.enter index := by
  have hdemote := board_demoteCurrent hsound
  obtain ⟨e, he, heitem, _⟩ := MixerBoard.cleared_entry (.inl rfl) (board_entry hget)
  rw [← hdemote] at he
  obtain ⟨active', hget', rfl⟩ := get_of_board he
  have hpromote := board_promote hget' reason
  rw [show active'.item = active.item from heitem, hdemote] at hpromote
  exact hpromote

theorem moves_transitionApplied (seq : Seq) (index : ℕ) (moment : SessionFrame) :
    Keeps (Moves (some ⟨seq, true⟩)) (transitionApplied (W := W) seq index moment) := fun q => by
  apply leads_read_bind
  cases hfilter : q.pendingHandover.filter fun pending =>
      pending.seq == seq && (q.active.get index).any (q.handsOver pending index) with
  | none => exact follows_of_eq rfl
  | some pending =>
    obtain ⟨hpending, hnamed⟩ := Option.filter_eq_some_iff.mp hfilter
    rw [Bool.and_eq_true, beq_iff_eq] at hnamed
    obtain ⟨rfl, hhands⟩ := hnamed
    cases hget : q.active.get index with
    | none =>
      rw [hget] at hhands
      cases hhands
    | some active =>
      rw [hget] at hhands
      dsimp only [Leads]
      simp only [update_bind, read_bind, hget, require, Program.pure_bind]
      split
      case isTrue =>
        exact fun hsound => follows_handover hpending hget hhands (.inl rfl)
          (board_takeOver (answered_sound hsound) hget _) hsound
      case isFalse hsome =>
        have htarget : q.target.map (·.item) = some active.item := by
          cases htarget : q.target with
          | none => simp [htarget] at hsome
          | some target => simpa [htarget] using hsome
        intro hsound
        obtain ⟨b, hcleared, hboard | hboard⟩ := enterTarget_board (q := q.answered)
          (answered_sound hsound) hget htarget moment pending.reason
        · exact follows_trans (moves_answered hpending true)
            (follows_cleared (hboard ▸ hcleared) _) hsound
        · exact follows_handover hpending hget hhands hcleared hboard hsound

theorem steady_finishLoad (index : ℕ) : Keeps Steady (finishLoad (W := W) index) := by
  apply keeps_bind (keeps_read _)
  intro active
  apply keeps_bind (keeps_require _ _)
  intro active
  refine keeps_bind (fun q => ?_) fun _ => keeps_read _
  exact steady_modify rfl rfl rfl rfl fun _ => rfl

theorem steady_initialAttachment (index : ℕ) : Keeps Steady (initialAttachment (W := W) index) := by
  apply keeps_bind (keeps_read _)
  intro prepared
  split
  · apply keeps_bind steady_earliest
    intro frame
    exact keeps_read _
  · exact keeps_pure _

theorem moves_finishTarget (index : ℕ) (load : Option LoadState) :
    Keeps (Moves none) (finishTarget (W := W) index load) := by
  unfold finishTarget
  split
  · exact keeps_pure _
  · apply keeps_bind (keeps_moves (steady_finishLoad index) none)
    intro wanted
    split
    · refine keeps_bind (keeps_moves (steady_setTarget fun _ _ => ?_) none) fun _ => keeps_pure _
      rfl
    · apply keeps_bind (moves_asPlay moves_cancelTarget)
      intro _
      exact keeps_pure _

/-- A program whose `true` leaves the board and the target's item alone. -/
def SteadyWhen (p : Run W ε Bool) : Prop := ∀ q q', p q = (.ok true, q') → Steady q q'

theorem steadyWhen_of_keeps {p : Run W ε Bool} (h : Keeps Steady p) : SteadyWhen p :=
  fun _ _ => steady_run h

theorem steadyWhen_false : SteadyWhen (pure false : Run W ε Bool) := fun q q' h => by cases h

theorem steadyWhen_bind {p : Run W ε α} {k : α → Run W ε Bool} (hp : Keeps Steady p)
    (hk : ∀ a, SteadyWhen (k a)) : SteadyWhen (p >>= k) := fun q q' h => by
  rcases hrun : p q with ⟨_ | a, q''⟩
  · rw [bind_error hrun] at h
    cases h
  · rw [bind_ok hrun] at h
    exact IsTrans.trans _ _ _ (steady_run hp hrun) (hk a q'' q' h)

/-- A program that ends in `false` is never steady. -/
theorem steadyWhen_last {p : Run W ε Unit} : SteadyWhen (do
    p
    return false : Run W ε Bool) := fun q q' h => by
  rcases hrun : p q with ⟨_ | a, q''⟩
  · rw [bind_error hrun] at h
    cases h
  · rw [bind_ok hrun] at h
    cases h

theorem steadyWhen_if {p k : Run W ε Bool} (hp : SteadyWhen p) (hk : SteadyWhen k) :
    SteadyWhen (p >>= fun c => if c = true then k else pure false) := fun q q' h => by
  rcases hrun : p q with ⟨_ | _ | _, q''⟩
  · rw [bind_error hrun] at h
    cases h
  · rw [bind_ok hrun] at h
    cases h
  · rw [bind_ok hrun] at h
    exact IsTrans.trans _ _ _ (hp q q'' hrun) (hk q'' q' h)

theorem steadyWhen_finishTarget (index : ℕ) (load : Option LoadState) :
    SteadyWhen (finishTarget (W := W) index load) := by
  unfold finishTarget
  split
  · exact steadyWhen_of_keeps (keeps_pure _)
  · apply steadyWhen_bind (steady_finishLoad index)
    intro wanted
    split
    · refine steadyWhen_of_keeps (keeps_bind (steady_setTarget fun _ _ => ?_) fun _ => keeps_pure _)
      rfl
    · exact steadyWhen_last

theorem steady_seekHeld : Keeps Steady (seekHeld (W := W)) := by
  apply keeps_bind (keeps_read _)
  intro held
  split
  · apply keeps_bind (steady_asPlay (steady_seekTo _))
    intro _
    exact keeps_pure _
  · exact keeps_pure _

theorem steady_attaching (index : ℕ) (target : Target) :
    Keeps Steady (attaching (W := W) index target) := by
  unfold attaching
  split
  · exact steady_initialAttachment index
  · exact keeps_pure _

theorem moves_prepareTarget (index : ℕ) (target : Target) :
    Keeps (Moves none) (prepareTarget (W := W) index target) := by
  apply keeps_bind (keeps_read _)
  intro active
  split
  · exact keeps_pure _
  · apply keeps_bind (keeps_read _)
    intro replacement
    split
    · exact keeps_pure _
    · apply keeps_bind (keeps_moves (steady_attaching index target) none)
      intro initial
      split
      · exact keeps_pure _
      · apply keeps_bind (moves_finishTarget index _)
        intro finished
        split
        · apply keeps_bind (keeps_moves steady_seekHeld none)
          intro _
          exact keeps_pure _
        · exact keeps_pure _

theorem steadyWhen_prepareTarget (index : ℕ) (target : Target) :
    SteadyWhen (prepareTarget (W := W) index target) := by
  apply steadyWhen_bind (keeps_read _)
  intro active
  split
  · exact steadyWhen_false
  · apply steadyWhen_bind (keeps_read _)
    intro replacement
    split
    · exact steadyWhen_false
    · apply steadyWhen_bind (steady_attaching index target)
      intro initial
      split
      · exact steadyWhen_false
      · apply steadyWhen_if (steadyWhen_finishTarget index _)
        exact steadyWhen_of_keeps (keeps_bind steady_seekHeld fun _ => keeps_pure _)

theorem leads_pauseTarget {q : Queue W} {index : ℕ} {active : Active W.Track}
    (hget : q.active.get index = some active) (hrole : active.role = .incoming)
    (htarget : q.target.map (·.item) = some active.item) (target : Target) :
    Leads (Moves none) (pauseTarget index target) q := by
  apply leads_read_bind
  split
  · exact leads_pure none q
  · refine leads_bind (keeps_moves (steady_applyAt index (.pause .next)) none q)
      fun sent q' hsent => ?_
    have hsteady := steady_run (steady_applyAt index (.pause .next)) hsent
    split
    · refine keeps_moves (keeps_bind (keeps_read _) fun _ => keeps_bind (keeps_require _ _) fun _ =>
        keeps_bind (steady_setTarget fun _ _ => ?_) fun _ => keeps_pure _) none q'
      rfl
    · refine leads_bind (keeps_moves steady_earliest none q') fun frame q'' hframe => ?_
      have hsteady' := IsTrans.trans _ _ _ hsteady (steady_run steady_earliest hframe)
      obtain ⟨active', hget', hseat⟩ := hsteady'.get_some hget
      have hitem : active'.item = active.item := congrArg Seat.item hseat
      have hrole' : active'.role = .incoming := (congrArg Seat.role hseat).trans hrole
      refine leads_bind (moves_enterTarget hget' hrole' ?_ frame target.reason) fun _ q₃ _ =>
        leads_pure none q₃
      rw [hsteady'.target, htarget, hitem]

theorem steady_setBound (bound : Bound) : Keeps Steady (setBound (W := W) bound) := by
  refine keeps_bind (keeps_read _) fun _ => keeps_bind (keeps_require _ _) fun _ =>
    keeps_bind (steady_setTarget fun _ _ => ?_) fun _ => keeps_pure _
  rfl

theorem steady_targetEntryBound (target : Target) :
    Keeps Steady (targetEntryBound (W := W) target) := by
  unfold targetEntryBound
  split
  · apply keeps_bind (steady_autoBound _)
    intro bound
    split
    · exact keeps_pure none
    · exact steady_setBound _
  · split
    · apply keeps_bind steady_earliest
      intro frame
      exact steady_setBound _
    · apply keeps_bind (keeps_require _ _)
      intro bound
      exact keeps_pure _

theorem steady_transitionEntry (index : ℕ) (bound : Bound) :
    Keeps Steady (transitionEntry (W := W) index bound) := by
  apply keeps_bind steady_earliest
  intro frame
  apply keeps_bind (keeps_read _)
  intro active
  apply keeps_bind (keeps_require _ _)
  intro active
  split
  · exact keeps_pure _
  · split
    · exact keeps_pure _
    · exact keeps_pure _

theorem steady_prepareTransition (incoming : ℕ) (frame : SessionFrame) :
    Keeps Steady (prepareTransition (W := W) incoming frame) := by
  apply keeps_bind (keeps_read _)
  intro full
  split
  · exact keeps_fail _
  · exact steady_prepareEntryAt incoming frame

theorem steady_transitionWhen (incoming : ℕ) (frame : SessionFrame) :
    Keeps Steady (transitionWhen (W := W) incoming frame) := by
  apply keeps_bind (steady_initialAttachment incoming)
  intro initial
  split
  · apply keeps_bind steady_earliest
    intro earliest
    split
    · exact keeps_pure _
    · exact keeps_pure _
  · exact keeps_pure _

theorem steady_together (moment : When SessionFrame) {parts : Run W PlayError Unit}
    (hparts : Keeps Steady parts) : Keeps Steady (together moment parts) := by
  refine keeps_bind (fun _ => ⟨rfl, rfl⟩) fun _ => ?_
  apply keeps_bind (keeps_attempt hparts)
  intro outcome
  split
  · refine keeps_bind (steady_update fun _ => ?_) fun _ => keeps_fail _
    exact ⟨rfl, rfl⟩
  · exact fun _ => ⟨rfl, rfl⟩

theorem steady_fadeTransition (incoming : ℕ) (outgoing : Option ℕ) (moment : When SessionFrame)
    (settings : CrossfadeSettings) :
    Keeps Steady (fadeTransition (W := W) incoming outgoing moment settings) := by
  have hsend : ∀ (index : ℕ) (command : TrackCommand W.toPayloads), Keeps Steady (do
      let _ ← applyAt index command
      return () : Run W PlayError Unit) := fun index command =>
    keeps_bind (steady_applyAt index command) fun _ => keeps_pure ()
  have hfinish : ∀ sent : Option Seq, Keeps Steady
      (forEach (finishGroupAt sent) outgoing.toList : Run W PlayError Unit) := fun sent =>
    keeps_forEach (steady_finishGroupAt sent) _
  apply keeps_bind (keeps_read _)
  intro active
  apply keeps_bind (keeps_require _ _)
  intro active
  apply keeps_bind (keeps_read _)
  intro replacement
  refine keeps_bind (keeps_attempt (steady_together moment ?_)) fun outcome => ?_
  · apply keeps_bind (keeps_whenever fun _ => hsend _ _)
    intro _
    apply keeps_bind (steady_applyAt incoming _)
    intro _
    exact keeps_forEach (fun index => hsend index _) _
  · split
    · exact keeps_pure _
    · apply keeps_bind (steady_finishGroupAt _ incoming)
      intro _
      apply keeps_bind (hfinish _)
      intro _
      exact keeps_pure _
    · apply keeps_bind (steady_finishGroupAt none incoming)
      intro _
      apply keeps_bind (hfinish none)
      intro _
      exact keeps_fail _

theorem steady_sendEntry (incoming : ℕ) (outgoing : Option ℕ) (moment : When SessionFrame)
    (settings : CrossfadeSettings) (predecessor : Option Slot) :
    Keeps Steady (sendEntry (W := W) incoming outgoing moment settings predecessor) := by
  unfold sendEntry
  split
  · exact steady_applyAt incoming _
  · exact steady_fadeTransition incoming outgoing moment settings

theorem moves_handOver {q : Queue W} {index : ℕ} {active : Active W.Track}
    (hget : q.active.get index = some active) (hrole : active.role = .incoming)
    (hnone : q.board.pending = none) {target : Target} (hitem : target.item = active.item)
    (chain : Bool) (sent : Option Seq) :
    Moves none q (q.handOver target active.slot (q.active.isReplacement index) chain sent) := by
  cases sent with
  | none => exact follows_of_eq rfl
  | some seq =>
    refine moves_move (.send ⟨seq, target.item, active.slot.toNat,
      q.active.isReplacement index⟩) trivial (fun _ => ⟨hnone, ?_⟩)
      fun _ => rfl
    refine ⟨seat active, ?_, hitem.symm, rfl, hrole⟩
    rw [isReplacement_of_get hget]
    rw [Slots.get] at hget
    split at hget
    case isTrue hle =>
      rw [if_pos (decide_eq_true hle)]
      exact List.mem_map_of_mem (List.mem_of_getElem? hget)
    case isFalse hlt =>
      rw [if_neg (by simpa using hlt)]
      exact List.mem_map_of_mem (List.mem_of_getElem? hget)

theorem leads_sendTransition {q : Queue W} {index : ℕ} {active : Active W.Track}
    (hget : q.active.get index = some active) (hrole : active.role = .incoming)
    (htarget : q.target.map (·.item) = some active.item) (frame : SessionFrame) :
    Leads (Moves none) (sendTransition index frame) q := by
  apply leads_read_bind
  split
  · exact leads_pure none q
  case isFalse hpending =>
    apply leads_read_bind
    refine leads_require_bind fun target hsome => ?_
    have hitem : target.item = active.item := by
      rw [hsome] at htarget
      exact Option.some.inj htarget
    refine leads_bind (keeps_moves (steady_prepareTransition index frame) none q)
      fun prepared q₁ hprepared => ?_
    have hsteady₁ := steady_run (steady_prepareTransition index frame) hprepared
    split
    · obtain ⟨active₁, hget₁, hseat₁⟩ := hsteady₁.get_some hget
      apply leads_read_bind
      refine leads_require_bind fun active' hget' => ?_
      rw [hget₁] at hget'
      cases hget'
      apply leads_read_bind
      apply leads_read_bind
      apply leads_read_bind
      refine leads_bind (keeps_moves (steady_transitionWhen index frame) none q₁)
        fun moment q₂ hmoment => ?_
      have hsteady₂ := steady_run (steady_transitionWhen index frame) hmoment
      refine leads_bind (keeps_moves (steady_sendEntry index _ moment _ _) none q₂)
        fun sent q₃ hsent => ?_
      have hsteady₃ := IsTrans.trans _ _ _ hsteady₂ (steady_run (steady_sendEntry index _ moment _ _)
        hsent)
      obtain ⟨active₃, hget₃, hseat₃⟩ := hsteady₃.get_some hget₁
      have hseat := hseat₃.trans hseat₁
      refine leads_bind ?_ fun _ q₄ _ => leads_pure sent q₄
      have hnone : q₃.board.pending = none := by
        rw [hsteady₃.board, hsteady₁.board]
        simpa [Queue.board, view] using hpending
      have hslot : active₁.slot = active₃.slot :=
        UInt16.toNat_inj.mp (congrArg Seat.slot hseat₃).symm
      rw [hslot, ← hsteady₃.isReplacement index]
      exact moves_handOver hget₃ ((congrArg Seat.role hseat).trans hrole) hnone
        (hitem.trans (congrArg Seat.item hseat).symm) _ sent
    · exact leads_pure none q₁

theorem moves_resumeTarget (index : ℕ) (playing : Bool) :
    Keeps (Moves none) (resumeTarget (W := W) index playing) := by
  apply keeps_bind (keeps_moves (steady_applyAt index _) none)
  intro sent
  refine keeps_bind (moves_aside fun _ => ?_) fun _ => keeps_pure sent
  rfl

theorem leads_startTarget {q : Queue W} {index : ℕ} {active : Active W.Track}
    (hget : q.active.get index = some active) (hrole : active.role = .incoming)
    (htarget : q.target.map (·.item) = some active.item) (target : Target) :
    Leads (Moves none) (startTarget index target) q := by
  refine leads_bind (keeps_moves (steady_targetEntryBound target) none q) fun bound q₁ hbound => ?_
  have hsteady₁ := steady_run (steady_targetEntryBound target) hbound
  split
  · exact leads_pure none q₁
  · refine leads_bind (keeps_moves (steady_transitionEntry index _) none q₁)
      fun frame q₂ hframe => ?_
    have hsteady₂ := IsTrans.trans _ _ _ hsteady₁ (steady_run (steady_transitionEntry index _) hframe)
    split
    · exact leads_pure none q₂
    · obtain ⟨active₂, hget₂, hseat₂⟩ := hsteady₂.get_some hget
      refine leads_bind (leads_sendTransition hget₂ ((congrArg Seat.role hseat₂).trans hrole) ?_ _)
        fun sent q₃ _ => ?_
      · rw [hsteady₂.target, htarget]
        exact congrArg some (congrArg Seat.item hseat₂).symm
      · refine keeps_bind (keeps_whenever fun _ => moves_aside fun _ => ?_)
          (fun _ => keeps_pure sent) q₃
        rfl

theorem incoming_entry {q : Queue W} {id : TrackId} {index : ℕ} (h : q.incomingIndex id = some index) :
    ∃ active, q.active.get index = some active ∧ active.item = id ∧ active.role = .incoming := by
  obtain ⟨active, hget, hfind⟩ := get_of_position h
  rw [Bool.and_eq_true, beq_iff_eq, beq_iff_eq] at hfind
  exact ⟨active, hget, hfind⟩

theorem moves_transitionLoaded : Keeps (Moves none) (transitionLoaded (W := W)) := fun q => by
  apply leads_read_bind
  cases hopen : q.openTarget with
  | none => exact leads_pure none q
  | some target =>
    have htarget : q.target.map (·.item) = some target.item := by
      rw [(Option.filter_eq_some_iff.mp hopen).1]
      rfl
    apply leads_read_bind
    split
    · exact leads_pure none q
    · apply leads_read_bind
      split
      · exact moves_resumeTarget _ _ q
      · apply leads_read_bind
        cases hindex : q.incomingIndex target.item with
        | none => exact leads_pure none q
        | some index =>
          obtain ⟨active, hget, hitem, hrole⟩ := incoming_entry hindex
          refine leads_bind (moves_prepareTarget index target q) fun prepared q' hprepared => ?_
          split
          case isFalse => exact leads_pure none q'
          case isTrue hready =>
            rw [hready] at hprepared
            have hsteady := steadyWhen_prepareTarget index target q q' hprepared
            obtain ⟨active', hget', hseat⟩ := hsteady.get_some hget
            have hrole' := (congrArg Seat.role hseat).trans hrole
            have htarget' : q'.target.map (·.item) = some active'.item := by
              rw [hsteady.target, htarget, ← hitem]
              exact congrArg some (congrArg Seat.item hseat).symm
            split
            · exact leads_startTarget hget' hrole' htarget' target
            · exact leads_pauseTarget hget' hrole' htarget' target

end DeckQueue

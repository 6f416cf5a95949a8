import Kithara.QueueBoard

/-! What a deck's queue does on its board when it lets entries go. A program that only talks to tracks
and to the outbox is steady; the others make moves, and where a move needs a guard it is read off what
the program has just looked at. -/
namespace DeckQueue

open FollowedMoves
open MixerBoard (Board Seat Handover Move Sound isAhead)
open Navigation (TrackId AdvanceReason)
open CommandProtocol (When)
open QueueSlots QueueTracks StatefulPrograms StatefulPrograms.Program

variable {W : World} {ε α β : Type}

theorem board_setRole (q : Queue W) (index : ℕ) (role : Role) :
    (q.setRole index role).board = q.board.modify index role :=
  view_role _ _ _ _ _

theorem board_entry {q : Queue W} {index : ℕ} {active : Active W.Track}
    (h : q.active.get index = some active) : q.board.entries[index]? = some (seat active) :=
  entry_of_get h _ _

theorem get_of_board {q : Queue W} {index : ℕ} {e : Seat TrackId}
    (h : q.board.entries[index]? = some e) :
    ∃ active, q.active.get index = some active ∧ seat active = e := by
  rw [Queue.board, view_entries, List.getElem?_map, ← get_eq_entries] at h
  exact Option.map_eq_some_iff.mp h

theorem moves_assign {q : Queue W} {index : ℕ} {active : Active W.Track} {role : Role}
    (hget : q.active.get index = some active) (hrole : isAhead role)
    (hcur : active.role ≠ .current) (hleft : active.role ≠ .leaving) :
    Moves none q (q.setRole index role) :=
  moves_move (.assign index role) (permitted_of_plain rfl)
    (fun _ => ⟨hrole, seat active, board_entry hget, hcur, hleft⟩)
    fun _ => board_setRole q index role

theorem board_leave {q : Queue W} {index : ℕ} {active : Active W.Track}
    (hget : q.active.get index = some active) :
    (q.leave index (q.active.isReplacement index)).board = q.board.release index := by
  have hboard := board_setRole q index .leaving
  rw [Queue.leave, hget, isReplacement_of_get hget, Board.release]
  by_cases hle : q.active.active.length ≤ index
  · have hseated : q.board.seated[index]? = none := not_seated hle
    rw [hseated, decide_eq_true hle]
    exact hboard
  · have hseated : q.board.seated[index]? = some (seat active) := seated_of_get hget (by omega)
    rw [hseated, decide_eq_false hle]
    exact congrArg (Board.clearFade · active.slot.toNat) hboard

theorem moves_leave (q : Queue W) (index : ℕ) :
    Moves none q (q.leave index (q.active.isReplacement index)) := by
  cases hget : q.active.get index with
  | none =>
    rw [Queue.leave, hget]
    exact follows_of_eq rfl
  | some active =>
    exact moves_move (.release index) (permitted_of_plain rfl)
      (fun _ => ⟨seat active, board_entry hget⟩) fun _ => board_leave hget

theorem reapOne_get {q : Queue W} {index before : ℕ} (h : before < index) :
    (q.reapOne index).active.get before = q.active.get before := by
  unfold Queue.reapOne
  split
  · rfl
  · dsimp only
    split
    · exact get_remove q.active h
    · exact get_remove q.active h

theorem reapOne_pending (q : Queue W) (index : ℕ) :
    (q.reapOne index).pendingHandover = q.pendingHandover := by
  unfold Queue.reapOne
  split
  · rfl
  · dsimp only
    split <;> rfl

/-- Whether the queue still waits for the entry's handover. -/
def Queue.awaits (q : Queue W) (active : Active W.Track) : Prop :=
  ∃ pending, q.pendingHandover = some pending ∧ pending.item = active.item

theorem moves_reapOne {q : Queue W} {index : ℕ} {active : Active W.Track}
    (hget : q.active.get index = some active) (hfree : ¬ q.awaits active) :
    Moves none q (q.reapOne index) := by
  have hremove : Moves none q { q with active := q.active.remove index } := by
    refine moves_move (.remove index) (permitted_of_plain rfl)
      (fun _ => ⟨seat active, board_entry hget, fun h hpending heq => hfree ?_⟩) fun _ =>
        view_remove hget _ _
    obtain ⟨pending, hsome, rfl⟩ := Option.map_eq_some_iff.mp hpending
    exact ⟨pending, hsome, heq⟩
  unfold Queue.reapOne
  rw [hget]
  dsimp only
  split
  · refine follows_trans hremove (moves_move .forget (permitted_of_plain rfl)
      (fun _ => trivial) fun _ => rfl)
  · exact hremove

theorem moves_reapAll {indices : List ℕ} (hdesc : indices.Pairwise (· > ·)) (q : Queue W)
    (h : ∀ index ∈ indices, ∃ active, q.active.get index = some active ∧ ¬ q.awaits active) :
    Moves none q (indices.foldl Queue.reapOne q) := by
  induction indices generalizing q with
  | nil => exact follows_of_eq rfl
  | cons index indices ih =>
    obtain ⟨hgt, hdesc⟩ := List.pairwise_cons.mp hdesc
    obtain ⟨active, hget, hfree⟩ := h index List.mem_cons_self
    refine follows_trans (moves_reapOne hget hfree) (ih hdesc _ fun before hbefore => ?_)
    obtain ⟨active', hget', hfree'⟩ := h before (List.mem_cons_of_mem _ hbefore)
    refine ⟨active', by rw [reapOne_get (hgt before hbefore), hget'], ?_⟩
    rwa [Queue.awaits, reapOne_pending]

theorem moves_reapReleased (q : Queue W) : Moves none q q.reapReleased := by
  have hreap := moves_reapAll (List.pairwise_reverse.mpr (indices_increase q.reapParked.active
    q.reapParked.reapable)) q.reapParked fun index hindex => by
      obtain ⟨active, hget, hreapable⟩ := get_of_mem_indices (List.mem_reverse.mp hindex)
      refine ⟨active, hget, ?_⟩
      rintro ⟨pending, hpending, hitem⟩
      simp [Queue.reapable, hpending, hitem] at hreapable
  exact follows_trans (follows_of_eq rfl) hreap

theorem reapAll_staged {indices : List ℕ} {q : Queue W} {active : Active W.Track}
    (h : active ∈ (indices.foldl Queue.reapOne q).active.staged) : active ∈ q.active.staged := by
  induction indices generalizing q with
  | nil => exact h
  | cons index indices ih =>
    have hone : ∀ active ∈ (q.active.remove index).staged, active ∈ q.active.staged := by
      unfold Slots.remove
      split
      · exact fun active ha => List.mem_of_mem_eraseIdx ha
      · split
        · exact fun active ha => ha
        · exact fun active ha => ha
    have hmem := ih h
    unfold Queue.reapOne at hmem
    split at hmem
    · exact hmem
    · dsimp only at hmem
      split at hmem
      · exact hone active hmem
      · exact hone active hmem

theorem keeps_reapReleased : Keeps (Moves none) (update (·.reapReleased) : Run W ε Unit) :=
  keeps_update moves_reapReleased

theorem steady_run {p : Run W ε α} (h : Keeps Steady p) {q q' : Queue W} {outcome : Except ε α}
    (hrun : p q = (outcome, q')) : Steady q q' := by
  have := h q
  rwa [Leads, hrun] at this

theorem releaseTrack_run {index : ℕ} {q q' : Queue W} {sent : Option Seq}
    (hrun : releaseTrack index q = (.ok sent, q')) : ∃ q₁, Steady q q₁ ∧
      q' = q₁.leave index (q₁.active.isReplacement index) := by
  rw [releaseTrack, read_bind] at hrun
  rcases hsent : applyAt index .release q with ⟨_ | _, q₁⟩
  · rw [bind_error hsent] at hrun
    cases hrun
  · have hsteady := steady_run (steady_applyAt index .release) hsent
    rw [bind_ok hsent, ← hsteady.isReplacement index] at hrun
    cases hrun
    exact ⟨q₁, hsteady, rfl⟩

theorem moves_releaseTrack (index : ℕ) : Keeps (Moves none) (releaseTrack (W := W) index) :=
  fun q => by
    apply leads_read_bind
    refine leads_bind (keeps_moves (steady_applyAt index .release) none q) fun sent q' hsent => ?_
    have hsteady := steady_run (steady_applyAt index .release) hsent
    change Moves none q' (q'.leave index (q.active.isReplacement index))
    rw [← hsteady.isReplacement index]
    exact moves_leave q' index

theorem moves_ignored {p : Run W ε α} (hp : Keeps (Moves none) p) :
    Keeps (Moves none) (do
      let _ ← p
      return ()) :=
  keeps_bind hp fun _ => keeps_pure ()

theorem moves_asQueue {p : Run W PlayError α} {answer : Option Answer} (hp : Keeps (Moves answer) p) :
    Keeps (Moves answer) (asQueue p) :=
  keeps_mapError _ hp

theorem moves_asPlay {p : Run W QueueError α} {answer : Option Answer} (hp : Keeps (Moves answer) p) :
    Keeps (Moves answer) (asPlay p) :=
  keeps_mapError _ hp

theorem steady_asQueue {p : Run W PlayError α} (hp : Keeps Steady p) : Keeps Steady (asQueue p) :=
  keeps_mapError _ hp

theorem steady_asPlay {p : Run W QueueError α} (hp : Keeps Steady p) : Keeps Steady (asPlay p) :=
  keeps_mapError _ hp

/-- An update off the board. -/
theorem moves_aside {f : Queue W → Queue W} (h : ∀ q, (f q).board = q.board) :
    Keeps (Moves none) (update f : Run W ε Unit) :=
  fun q => follows_of_eq (h q)

theorem moves_abandonRemovalEntry : Keeps (Moves none) (abandonRemovalEntry (W := W)) :=
  keeps_update fun q => by
    split
    · exact follows_of_eq rfl
    case h_2 target _ =>
      dsimp only
      split
      · exact follows_of_eq rfl
      case h_2 index hindex =>
        obtain ⟨active, hget, hfind⟩ := get_of_position hindex
        rw [Bool.and_eq_true, beq_iff_eq, beq_iff_eq] at hfind
        refine follows_trans (follows_of_eq rfl) (moves_assign hget (.inr rfl) ?_ ?_)
        · rw [hfind.2]
          decide
        · rw [hfind.2]
          decide

theorem steady_cancelRepeat : Keeps Steady (cancelRepeat (W := W)) := by
  apply keeps_bind (keeps_read _)
  intro index
  apply keeps_bind (keeps_require _ _)
  intro index
  apply keeps_bind (steady_applyAt index .supersede)
  intro sent
  exact keeps_pure ()

theorem moves_dropIncoming (chained : Bool) (incoming : Option ℕ) :
    Keeps (Moves none) (dropIncoming (W := W) chained incoming) := by
  unfold dropIncoming
  split
  · exact keeps_pure ()
  · split
    · exact moves_ignored (keeps_moves (steady_applyAt _ _) none)
    · exact moves_ignored (moves_releaseTrack _)

theorem moves_cancelTarget : Keeps (Moves none) (cancelTarget (W := W)) := by
  apply keeps_bind (keeps_read _)
  intro target
  split
  · exact keeps_pure ()
  · apply keeps_bind (keeps_read _)
    intro status
    split
    · apply keeps_bind (keeps_moves (steady_asQueue steady_cancelRepeat) none)
      intro _
      exact moves_aside fun _ => rfl
    · apply keeps_bind (keeps_read _)
      intro incoming
      apply keeps_bind (moves_asQueue (moves_dropIncoming _ incoming))
      intro _
      refine keeps_update fun q => follows_trans (follows_of_eq ?_) (moves_reapReleased _)
      split <;> rfl

theorem moves_releaseTails : Keeps (Moves none) (releaseTails (W := W)) := by
  apply keeps_bind (keeps_read _)
  intro ended
  exact keeps_forEach (fun index => moves_ignored (moves_releaseTrack index)) ended

/-- A preloaded entry goes, and its record is consumed. -/
theorem moves_consume (index : ℕ) : Keeps (Moves none) (do
    let active ← asQueue (require .noActiveSlot (← read (·.active.get index)))
    let _ ← asQueue (releaseTrack (W := W) index)
    update (·.setStatus active.item .consumed) : Run W QueueError Unit) := by
  apply keeps_bind (keeps_read _)
  intro active
  apply keeps_bind (moves_asQueue (keeps_require _ _))
  intro active
  apply keeps_bind (moves_asQueue (moves_releaseTrack index))
  intro _
  exact moves_aside fun _ => rfl

theorem moves_cancelAuto : Keeps (Moves none) (cancelAuto (W := W)) := by
  apply keeps_bind (keeps_read _)
  intro auto
  apply keeps_bind (keeps_whenever fun _ => moves_cancelTarget)
  intro _
  apply keeps_bind (keeps_read _)
  intro preloaded
  apply keeps_bind (keeps_forEach moves_consume preloaded)
  intro _
  exact keeps_reapReleased

/-- What is set of the target beside its item does not show. -/
theorem steady_withTarget {q : Queue W} {f : Target → Target} (h : ∀ t, (f t).item = t.item) :
    Steady q (q.setTarget f) :=
  ⟨rfl, by
    rw [Queue.setTarget, Option.map_map]
    exact Option.map_congr fun t _ => h t⟩

theorem steady_setTarget {f : Queue W → Target → Target} (h : ∀ q t, (f q t).item = t.item) :
    Keeps Steady (update (fun q => q.setTarget (f q)) : Run W ε Unit) :=
  fun q => steady_withTarget (h q)

theorem steady_withdrawTransition : Keeps Steady (withdrawTransition (W := W)) := by
  apply keeps_bind (keeps_read _)
  intro target
  split
  · exact keeps_pure ()
  · apply keeps_bind (keeps_read _)
    intro index
    split
    · exact keeps_pure ()
    · apply keeps_bind (keeps_read _)
      intro pending
      split
      · apply keeps_bind (steady_asQueue (steady_applyAt _ _))
        intro _
        exact steady_setTarget fun _ _ => rfl
      · exact steady_setTarget fun _ _ => rfl

theorem steady_withdrawAuto : Keeps Steady (withdrawAuto (W := W)) := by
  apply keeps_bind (keeps_read _)
  intro auto
  exact keeps_whenever fun _ => steady_withdrawTransition

theorem steady_hold (position : W.Position) : Keeps Steady (hold position) :=
  steady_update fun _ => ⟨rfl, rfl⟩

theorem steady_seekTo (position : W.Position) : Keeps Steady (seekTo position) := by
  apply keeps_bind (keeps_read _)
  intro index
  split
  · apply keeps_bind (steady_hold position)
    intro _
    exact keeps_pure none
  · apply keeps_bind (keeps_read _)
    intro active
    apply keeps_bind (steady_asQueue (keeps_require _ _))
    intro active
    split
    · apply keeps_bind (steady_hold position)
      intro _
      exact keeps_pure none
    · apply keeps_bind (steady_asQueue (steady_seekAt _ position))
      intro sent
      apply keeps_bind steady_withdrawAuto
      intro _
      refine keeps_bind (steady_update fun _ => ?_) fun _ => keeps_pure _
      exact ⟨rfl, rfl⟩

theorem steady_frames (nanos : ℕ) : Keeps Steady (frames (W := W) nanos) := by
  apply keeps_bind (keeps_read _)
  intro rate
  split
  · exact keeps_fail _
  · split
    · exact keeps_pure _
    · exact keeps_fail _

theorem steady_fadeFrames (duration : F32) : Keeps Steady (fadeFrames (W := W) duration) := by
  apply keeps_bind (keeps_require _ _)
  intro time
  exact steady_frames time

theorem steady_autoBound (settings : CrossfadeSettings) :
    Keeps Steady (autoBound (W := W) settings) := by
  apply keeps_bind (keeps_read _)
  intro finish
  split
  · exact keeps_pure none
  · apply keeps_bind (keeps_read _)
    intro gapless
    apply keeps_bind (steady_fadeFrames _)
    intro fade
    exact keeps_pure _

theorem steady_earliest : Keeps Steady (earliest (W := W)) := by
  apply keeps_bind (keeps_read _)
  intro frame
  exact keeps_require _ _

end DeckQueue

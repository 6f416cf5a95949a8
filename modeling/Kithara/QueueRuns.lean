import Kithara.QueueCalls
import Mathlib.Data.Finset.Card

/-! Runs of a deck's queue: commands, passes, receipts and ticks in any order, over any tracks and
any outside. A run is a trace of moves on the mixer's board, so in every state it reaches one entry
at most sounds as the current one, seats are not shared, and a handover waits until the receipt of
its own batch. -/
namespace DeckQueue

open FollowedMoves
open MixerBoard (Board Seat Handover Move Sound)
open Navigation (TrackId AdvanceReason)
open QueueSlots QueueTracks
open TransitionSystem (Machine)

variable {W : World}

structure Queue.Orderly (q : Queue W) : Prop where
  /-- Two current entries are one, and it sits on the mixer. -/
  single : ∀ index index' active active', q.active.get index = some active →
    q.active.get index' = some active' → active.role = .current → active'.role = .current →
    index = index'
  seated : ∀ index active, q.active.get index = some active → active.role = .current →
    index < q.active.active.length
  named : ∀ id, q.current = some id → ∀ active ∈ q.active.entries, active.role = .current →
    active.item = id
  apart : q.active.active.Pairwise fun active active' => active.slot ≠ active'.slot
  bounded : ∀ active ∈ q.active.entries, active.slot.toNat < q.active.capacity
  fits : q.active.active.length ≤ q.active.capacity
  waiting : (q.active.staged.filter (·.role != .leaving)).length ≤ 1
  fades : ∀ (slot : Slot) (finish : SessionFrame), q.active.fadeEnd slot = some finish →
    ∃ active ∈ q.active.active, active.slot = slot

theorem sound_seated {q : Queue W} (h : Sound q.board) {index : ℕ} {active : Active W.Track}
    (hget : q.active.get index = some active) (hcur : active.role = .current) :
    index < q.active.active.length := by
  by_contra hle
  rw [Slots.get, if_pos (by omega)] at hget
  exact h.staged _ (List.mem_map_of_mem (List.mem_of_getElem? hget)) hcur

theorem sound_single {q : Queue W} (h : Sound q.board) {index index' : ℕ}
    {active active' : Active W.Track} (hget : q.active.get index = some active)
    (hget' : q.active.get index' = some active') (hcur : active.role = .current)
    (hcur' : active'.role = .current) : index = index' := by
  have hseat := seated_of_get hget (sound_seated h hget hcur)
  have hseat' := seated_of_get hget' (sound_seated h hget' hcur')
  have hsame : seat active = seat active' := MixerBoard.current_unique h
    (List.mem_of_getElem? hseat) (List.mem_of_getElem? hseat') hcur hcur'
  obtain ⟨hi, hseat⟩ := List.getElem?_eq_some_iff.mp hseat
  obtain ⟨hi', hseat'⟩ := List.getElem?_eq_some_iff.mp hseat'
  have hnodup : q.board.seated.Nodup := .of_map _ h.apart
  exact hnodup.getElem_inj_iff.mp (hseat.trans (hsame.trans hseat'.symm))

theorem sound_bounded {q : Queue W} (h : Sound q.board) {active : Active W.Track}
    (ha : active ∈ q.active.entries) : active.slot.toNat < q.active.capacity := by
  rcases List.mem_append.mp ha with ha | ha
  · exact h.seated_lt _ (List.mem_map_of_mem ha)
  · exact h.staged_lt _ (List.mem_map_of_mem ha)

theorem sound_slots {q : Queue W} (h : Sound q.board) :
    (q.active.active.map fun active => active.slot.toNat).Nodup := by
  have hapart := h.apart
  rwa [Queue.board, view, List.map_map] at hapart

theorem sound_fits {q : Queue W} (h : Sound q.board) :
    q.active.active.length ≤ q.active.capacity := by
  have hsub : (q.active.active.map fun active => active.slot.toNat) ⊆
      List.range q.active.capacity := fun slot hslot => by
    obtain ⟨active, ha, rfl⟩ := List.mem_map.mp hslot
    exact List.mem_range.mpr (sound_bounded h (List.mem_append_left _ ha))
  have hlen := (List.subperm_of_subset (sound_slots h) hsub).length_le
  rwa [List.length_map, List.length_range] at hlen

theorem orderly_of_sound {q : Queue W} (h : Sound q.board) : q.Orderly where
  single := fun _ _ _ _ => sound_single h
  seated := fun _ _ => sound_seated h
  named := fun id hid active ha hcur => by
    rcases List.mem_append.mp ha with ha | ha
    · exact h.named id hid (seat active) (List.mem_map_of_mem ha) hcur
    · exact absurd hcur (h.staged _ (List.mem_map_of_mem ha))
  apart := (List.pairwise_map.mp (sound_slots h)).imp fun hne heq =>
    hne (congrArg UInt16.toNat heq)
  bounded := fun _ => sound_bounded h
  fits := sound_fits h
  waiting := by
    have hwaiting := h.waiting
    rwa [Queue.board, view, List.countP_map, List.countP_eq_length_filter] at hwaiting
  fades := fun slot finish hfade => by
    obtain ⟨e, he, hslot⟩ := h.faded slot.toNat finish (Option.join_eq_some_iff.mp hfade)
    obtain ⟨active, ha, rfl⟩ := List.mem_map.mp he
    exact ⟨active, ha, UInt16.toNat_inj.mp hslot⟩

theorem new_board (config : Config W) (out : W.Out) : Sound (Queue.new config out).board :=
  MixerBoard.new_sound config.slots

theorem call_board {q : Queue W} (h : Sound q.board) (call : W.Out × Call W) :
    Sound (q.call call).board :=
  follows_holds (moves_call q call) h

theorem machine_free (q : Queue W) (calls : List (W.Out × Call W)) :
    (machine W).ValidTrace q calls :=
  TransitionSystem.valid_of_unguarded (fun _ _ => trivial) q calls

/-- Whatever the owner calls, in whatever order, the mixer is in order after every call. -/
theorem run_orderly (config : Config W) (out : W.Out) (calls : List (W.Out × Call W)) :
    (machine W).Throughout Queue.Orderly (Queue.new config out) calls := by
  have hboards := TransitionSystem.throughout_of_along (M := machine W)
    (P := fun q => Sound q.board) (G := fun _ _ => True) (fun q call hq _ _ => call_board hq call)
    (new_board config out) (machine_free _ calls) (TransitionSystem.along_trivial _ _)
  exact TransitionSystem.throughout_imp (fun _ => orderly_of_sound) hboards

def Call.answers (call : Call W) (seq : Seq) : Prop := ∃ applied, call.answer = some ⟨seq, applied⟩

theorem settled_of_permitted {answer : Option Answer} {move : Move TrackId SessionFrame}
    (h : Permitted answer move) {seq : Seq} (hsettled : MixerBoard.settled move = some seq) :
    ∃ applied, answer = some ⟨seq, applied⟩ := by
  cases move with
  | enter index cause =>
    cases cause with
    | pause => cases hsettled
    | handover batch =>
      cases hsettled
      exact ⟨true, h⟩
  | answer batch =>
    cases hsettled
    exact h
  | seat | stage | assign | release | vacate | remove | demote | fade | adopt | forget | send =>
    cases hsettled

theorem call_keeps_pending {q : Queue W} (hsound : Sound q.board) {pending : PendingHandover}
    (hpending : q.pendingHandover = some pending) {call : W.Out × Call W}
    (hother : ¬ call.2.answers pending.seq) :
    (q.call call).pendingHandover.map (·.handover) = some pending.handover := by
  obtain ⟨moves, hpermitted, hv, hboard⟩ := moves_call q call hsound
  have hkept := MixerBoard.pending_kept moves q.board (board_pending hpending) hv
    fun move hmove hsettled => hother (settled_of_permitted (hpermitted move hmove) hsettled)
  exact (congrArg Board.pending hboard).trans hkept

/-- A handover that was sent stays pending through every call but the receipt of its own batch:
nothing else answers it, and no other is sent in the meantime. -/
theorem run_keeps_handovers (config : Config W) (out : W.Out) (calls : List (W.Out × Call W)) :
    (machine W).Along (fun q call => ∀ pending, q.pendingHandover = some pending →
        call.2.answers pending.seq ∨
          (q.call call).pendingHandover.map (·.handover) = some pending.handover)
      (Queue.new config out) calls := by
  refine TransitionSystem.along_of_invariant (I := fun q => Sound q.board) (G := fun _ _ => True)
    (fun q call hq _ _ => ⟨fun pending hpending => ?_, call_board hq call⟩) (new_board config out)
    (machine_free _ calls) (TransitionSystem.along_trivial _ _)
  by_cases hanswers : call.2.answers pending.seq
  · exact .inl hanswers
  · exact .inr (call_keeps_pending hq hpending hanswers)

def Queue.owes (q : Queue W) (batch : Seq) : ℕ :=
  if q.board.pending.any (·.batch == batch) then 1 else 0

/-- After the call a handover of the batch is pending that was not before. -/
def sends (batch : Seq) (q : Queue W) (call : W.Out × Call W) : Bool :=
  (q.call call).board.pending.any (·.batch == batch) &&
    (q.call call).board.pending != q.board.pending

/-- After the call the handover of the batch that was pending no longer is. -/
def settles (batch : Seq) (q : Queue W) (call : W.Out × Call W) : Bool :=
  q.board.pending.any (·.batch == batch) && (q.call call).board.pending != q.board.pending

def Call.isReceiptOf (batch : Seq) (call : Call W) : Bool :=
  call.answer.any (·.batch == batch)

theorem receipt_of_settles {batch : Seq} {q : Queue W} (hsound : Sound q.board)
    {call : W.Out × Call W} (h : settles batch q call = true) :
    call.2.isReceiptOf batch = true := by
  obtain ⟨hbatch, hgone⟩ := (Bool.and_eq_true _ _).mp h
  cases hpending : q.pendingHandover with
  | none =>
    rw [Queue.board, view, hpending] at hbatch
    cases hbatch
  | some pending =>
    rw [board_pending hpending] at hbatch hgone
    by_contra hother
    have hkept : (q.call call).pendingHandover.map (·.handover) = some pending.handover :=
      call_keeps_pending hsound hpending <| by
        rintro ⟨applied, hanswer⟩
        rw [Call.isReceiptOf, hanswer] at hother
        exact hother hbatch
    exact bne_iff_ne.mp hgone hkept

theorem run_answers (config : Config W) (out : W.Out) (calls : List (W.Out × Call W))
    (batch : Seq) : (machine W).Along (fun q call => settles batch q call → call.2.isReceiptOf batch)
      (Queue.new config out) calls :=
  TransitionSystem.along_of_invariant (I := fun q => Sound q.board) (G := fun _ _ => True)
    (fun _ call hq _ _ => ⟨receipt_of_settles hq, call_board hq call⟩) (new_board config out)
    (machine_free _ calls) (TransitionSystem.along_trivial _ _)

/-- Whatever the owner calls, the queue only makes moves the board allows: each call leads along its
stretch from the board before it to the board after it, and in that stretch the pending handover is
answered, and an entry takes over by it, only by the receipt the call brings. -/
theorem run_is_board_trace (config : Config W) (out : W.Out) (calls : List (W.Out × Call W)) :
    (∃ stretches : List (List (Move TrackId SessionFrame)),
      List.Forall₂ (fun call moves => ∀ move ∈ moves, Permitted call.2.answer move) calls
        stretches ∧
      mixer.ValidTrace (Board.new config.slots) stretches.flatten ∧
      ∀ n, ((machine W).runTrace (Queue.new config out) (calls.take n)).board =
        mixer.runTrace (Board.new config.slots) (stretches.take n).flatten) ∧
    ∀ batch, (machine W).Along (fun q call => settles batch q call → call.2.isReceiptOf batch)
      (Queue.new config out) calls := by
  constructor
  · exact run_follows (C := machine W) moves_call calls (Queue.new config out)
      (MixerBoard.new_sound config.slots)
  · exact run_answers config out calls

end DeckQueue

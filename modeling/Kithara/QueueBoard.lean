import Kithara.FollowedMoves
import Kithara.MixerBoard
import Kithara.QueueCommands
import Mathlib.Data.List.InsertIdx

/-! The board of a deck's queue: its entries without their tracks and loads, its fades, its current
item and its pending handover. A call of the queue is seen as the moves it makes on the board. -/
namespace DeckQueue

open FollowedMoves
open MixerBoard (Board Seat Handover Move Sound)
open Navigation (TrackId AdvanceReason)
open QueueSlots QueueTracks StatefulPrograms StatefulPrograms.Program

variable {W : World} {T : Type}

def seat (active : Active T) : Seat TrackId := ⟨active.item, active.slot.toNat, active.role⟩

def PendingHandover.handover (pending : PendingHandover) : Handover TrackId :=
  ⟨pending.seq, pending.item, pending.slot.toNat, pending.replacement⟩

def view (s : Slots T) (current : Option TrackId) (pending : Option PendingHandover) :
    Board TrackId SessionFrame :=
  ⟨s.capacity, s.active.map seat, s.staged.map seat, s.fades, current,
    pending.map PendingHandover.handover⟩

def Queue.board (q : Queue W) : Board TrackId SessionFrame :=
  view q.active q.current q.pendingHandover

theorem get_eq_entries (s : Slots T) (index : ℕ) : s.get index = s.entries[index]? := by
  unfold Slots.get Slots.entries
  split
  case isTrue h => rw [List.getElem?_append_right h]
  case isFalse h => rw [List.getElem?_append_left (by omega)]

theorem view_entries (s : Slots T) (current : Option TrackId) (pending : Option PendingHandover) :
    (view s current pending).entries = s.entries.map seat :=
  List.map_append.symm

theorem entry_of_get {s : Slots T} {index : ℕ} {active : Active T}
    (h : s.get index = some active) (current : Option TrackId) (pending : Option PendingHandover) :
    (view s current pending).entries[index]? = some (seat active) := by
  rw [view_entries, List.getElem?_map, ← get_eq_entries, h]
  rfl

theorem get_of_position {s : Slots T} {find : Active T → Bool} {index : ℕ}
    (h : s.position find = some index) : ∃ active, s.get index = some active ∧ find active := by
  obtain ⟨hlt, hfind, _⟩ := List.findIdx?_eq_some_iff_getElem.mp h
  exact ⟨s.entries[index], by rw [get_eq_entries, List.getElem?_eq_getElem hlt], hfind⟩

theorem none_of_position {s : Slots T} {find : Active T → Bool} (h : s.position find = none) :
    ∀ active ∈ s.entries, find active = false := fun active ha => by
  simpa using List.findIdx?_eq_none_iff.mp h active ha

theorem isReplacement_of_get {s : Slots T} {index : ℕ} {active : Active T}
    (h : s.get index = some active) :
    s.isReplacement index = decide (s.active.length ≤ index) := by
  have hlt : index < s.len := by
    rw [get_eq_entries] at h
    have := (List.getElem?_eq_some_iff.mp h).1
    rwa [Slots.entries, List.length_append] at this
  rw [Slots.isReplacement, decide_eq_true hlt, Bool.and_true]

theorem isReplacement_modify (s : Slots T) (changed index : ℕ) (change : Active T → Active T) :
    (s.modify changed change).isReplacement index = s.isReplacement index := by
  have hlen : (s.modify changed change).active.length = s.active.length ∧
      (s.modify changed change).staged.length = s.staged.length := by
    unfold Slots.modify
    split
    · exact ⟨rfl, List.length_modify ..⟩
    · exact ⟨List.length_modify .., rfl⟩
  rw [Slots.isReplacement, Slots.isReplacement, Slots.len, Slots.len, hlen.1, hlen.2]

theorem entries_remove (s : Slots T) (index : ℕ) :
    (s.remove index).entries = s.entries.eraseIdx index := by
  unfold Slots.remove Slots.entries
  split
  case isTrue hle => rw [List.eraseIdx_append_of_length_le hle]
  case isFalse hlt =>
    have hlt : index < s.active.length := by omega
    rw [List.getElem?_eq_getElem hlt, List.eraseIdx_append_of_lt_length hlt]
    rfl

/-- The entries before a removed one keep their indices. -/
theorem get_remove (s : Slots T) {index before : ℕ} (h : before < index) :
    (s.remove index).get before = s.get before := by
  rw [get_eq_entries, get_eq_entries, entries_remove, List.getElem?_eraseIdx_of_lt h]

theorem get_of_mem_indices {s : Slots T} {find : Active T → Bool} {index : ℕ}
    (h : index ∈ s.indices find) : ∃ active, s.get index = some active ∧ find active := by
  obtain ⟨⟨active, index⟩, hmem, rfl⟩ := List.mem_map.mp h
  obtain ⟨hzip, hfind⟩ := List.mem_filter.mp hmem
  exact ⟨active, by rw [get_eq_entries, List.mem_zipIdx_iff_getElem?.mp hzip], hfind⟩

theorem indices_increase (s : Slots T) (find : Active T → Bool) :
    (s.indices find).Pairwise (· < ·) := by
  refine List.Pairwise.sublist (List.filter_sublist.map _) ?_
  rw [List.zipIdx_map_snd]
  exact List.pairwise_lt_range'

theorem map_seat_modify {change : Active T → Active T} (h : ∀ active, seat (change active) = seat active)
    (entries : List (Active T)) (index : ℕ) :
    (entries.modify index change).map seat = entries.map seat := by
  refine List.ext_getElem (by simp) fun j _ _ => ?_
  rw [List.getElem_map, List.getElem_map, List.getElem_modify]
  split
  · exact h _
  · rfl

/-- A track or a load that changes is not seen. -/
theorem view_modify {change : Active T → Active T} (h : ∀ active, seat (change active) = seat active)
    (s : Slots T) (index : ℕ) (current : Option TrackId) (pending : Option PendingHandover) :
    view (s.modify index change) current pending = view s current pending := by
  unfold Slots.modify
  split
  · rw [view, view, map_seat_modify h]
  · rw [view, view, map_seat_modify h]

theorem map_seat_put (role : Role) (entries : List (Active T)) (index : ℕ) :
    (entries.modify index ({ · with role := role })).map seat =
      (entries.map seat).modify index (Seat.put role) := by
  refine List.ext_getElem (by simp) fun j _ _ => ?_
  rw [List.getElem_map, List.getElem_modify, List.getElem_modify, List.getElem_map]
  split <;> rfl

theorem view_role (s : Slots T) (index : ℕ) (role : Role) (current : Option TrackId)
    (pending : Option PendingHandover) :
    view (s.modify index ({ · with role := role })) current pending =
      (view s current pending).modify index role := by
  unfold Slots.modify Board.modify
  have hlen : (view s current pending).seated.length = s.active.length := List.length_map seat
  rw [hlen]
  split
  · rw [view, map_seat_put]
    rfl
  · rw [view, map_seat_put]
    rfl

theorem view_vacate (s : Slots T) (current : Option TrackId) (pending : Option PendingHandover) :
    view (s.mapEntries ({ · with role := .leaving })) current pending =
      (view s current pending).vacate := by
  simp only [view, Slots.mapEntries, Board.vacate, List.map_map]
  rfl

theorem seated_of_get {s : Slots T} {index : ℕ} {active : Active T} (h : s.get index = some active)
    (hlt : index < s.active.length) : (s.active.map seat)[index]? = some (seat active) := by
  rw [Slots.get, if_neg (by omega)] at h
  rw [List.getElem?_map, h]
  rfl

theorem not_seated {s : Slots T} {index : ℕ} (hle : s.active.length ≤ index) :
    (s.active.map seat)[index]? = none := by
  rw [List.getElem?_eq_none]
  rwa [List.length_map]

theorem view_remove {s : Slots T} {index : ℕ} {active : Active T} (h : s.get index = some active)
    (current : Option TrackId) (pending : Option PendingHandover) :
    view (s.remove index) current pending = (view s current pending).remove index := by
  unfold Slots.remove Board.remove
  split
  case isTrue hle =>
    rw [view, view, not_seated hle, ← List.eraseIdx_map]
    simp only [List.length_map]
  case isFalse hlt =>
    have hget : s.active[index]? = some active := by rwa [Slots.get, if_neg hlt] at h
    rw [hget]
    simp only [view, seated_of_get h (by omega), List.eraseIdx_map]
    rfl

theorem view_push (s : Slots T) (active : Active T) (current : Option TrackId)
    (pending : Option PendingHandover) : view (s.push active) current pending =
      { view s current pending with seated := (view s current pending).seated ++ [seat active] } := by
  simp only [view, Slots.push, List.map_append, List.map_cons, List.map_nil]

theorem view_stage (s : Slots T) (active : Active T) (current : Option TrackId)
    (pending : Option PendingHandover) : view (s.stage active) current pending =
      { view s current pending with staged := (view s current pending).staged ++ [seat active] } := by
  simp only [view, Slots.stage, List.map_append, List.map_cons, List.map_nil]

theorem findIdx_slot (entries : List (Active T)) (active : Active T) :
    ((entries.map seat).findIdx? fun e => e.slot == (seat active).slot) =
      entries.findIdx? fun other => other.slot == active.slot := by
  rw [List.findIdx?_map]
  congr 1
  funext other
  simp [seat, UInt16.toNat_inj]

theorem view_takeSeat (s : Slots T) (active : Active T) (current : Option TrackId)
    (pending : Option PendingHandover) :
    view (match s.active.findIdx? fun other => other.slot == active.slot with
      | some victim => { s with active := s.active.set victim active }
      | none => s.push active) current pending =
      { view s current pending with
        seated := Board.takeSeat (view s current pending).seated (seat active) } := by
  have hfind := findIdx_slot s.active active
  unfold Board.takeSeat
  simp only [view, hfind]
  cases s.active.findIdx? fun other => other.slot == active.slot with
  | none => simp only [Slots.push, List.map_append, List.map_cons, List.map_nil]
  | some victim => simp only [List.map_set]

/-- An entry whose part becomes the current one takes its seat if it was staged. -/
theorem view_activate {s : Slots T} {index : ℕ} {active : Active T} (h : s.get index = some active)
    (current : Option TrackId) (pending : Option PendingHandover) :
    view ((s.modify index ({ · with role := .current })).activateReplacement index)
        (some active.item) pending =
      (view s current pending).enter index := by
  by_cases hle : s.active.length ≤ index
  · have hstaged : s.staged[index - s.active.length]? = some active := by
      rwa [Slots.get, if_pos hle] at h
    have hput : (s.staged.modify (index - s.active.length)
        (fun active => { active with role := .current }))[index - s.active.length]? =
          some { active with role := .current } := by
      rw [List.getElem?_modify_eq, hstaged]
      rfl
    have hrep : (s.modify index ({ · with role := .current })).isReplacement index = true := by
      rw [isReplacement_modify, isReplacement_of_get h, decide_eq_true hle]
    have hseated : (view s current pending).seated[index]? = none := not_seated hle
    have hmapped : (view s current pending).staged[index - (view s current pending).seated.length]? =
        some (seat active) := by
      simp only [view, List.length_map, List.getElem?_map, hstaged, Option.map_some]
    rw [Slots.activateReplacement, if_pos hrep]
    simp only [Slots.modify, if_pos hle, hput, Board.enter, hseated, hmapped,
      List.eraseIdx_modify_of_eq]
    refine (view_takeSeat _ { active with role := .current } _ _).trans ?_
    simp only [view, List.eraseIdx_map, List.length_map]
    rfl
  · have hrep : (s.modify index ({ · with role := .current })).isReplacement index = false := by
      rw [isReplacement_modify, isReplacement_of_get h, decide_eq_false hle]
    have hseated : (view s current pending).seated[index]? = some (seat active) :=
      seated_of_get h (by omega)
    rw [Slots.activateReplacement, if_neg (by simp [hrep])]
    simp only [Board.enter, hseated, Slots.modify, if_neg hle]
    rw [view, map_seat_put]
    rfl

abbrev mixer : TransitionSystem.Machine (Board TrackId SessionFrame) (Move TrackId SessionFrame) :=
  MixerBoard.machine

def soundness : Invariant mixer := ⟨Sound, MixerBoard.sound_step⟩

/-- What a receipt says of a batch. -/
structure Answer where
  batch : Seq
  applied : Bool

/-- Only the receipt of a batch answers it, and an entry takes over only if the receipt applies it. -/
def Permitted (answer : Option Answer) : Move TrackId SessionFrame → Prop
  | .enter _ (.handover batch) => answer = some ⟨batch, true⟩
  | .answer batch => ∃ applied, answer = some ⟨batch, applied⟩
  | _ => True

abbrev Moves (answer : Option Answer) (q q' : Queue W) : Prop :=
  Follows soundness Queue.board (Permitted answer) q q'

/-- Neither the board nor the item the queue is after changes. -/
structure Steady (q q' : Queue W) : Prop where
  board : q'.board = q.board
  target : q'.target.map (·.item) = q.target.map (·.item)

instance : Std.Refl (Steady (W := W)) := ⟨fun _ => ⟨rfl, rfl⟩⟩

instance : IsTrans (Queue W) Steady :=
  ⟨fun _ _ _ h h' => ⟨h'.board.trans h.board, h'.target.trans h.target⟩⟩

theorem Steady.moves {q q' : Queue W} (h : Steady q q') (answer : Option Answer) :
    Moves answer q q' :=
  follows_of_eq h.board

variable {ε α : Type}

theorem keeps_moves {p : Run W ε α} (h : Keeps Steady p) (answer : Option Answer) :
    Keeps (Moves answer) p :=
  h.mono fun _ _ hs => hs.moves answer

theorem permitted_of_plain {answer : Option Answer} {move : Move TrackId SessionFrame}
    (h : MixerBoard.settles move = false) : Permitted answer move := by
  cases move with
  | enter index cause =>
    cases cause with
    | pause => trivial
    | handover batch => cases h
  | answer | send => cases h
  | seat | stage | assign | release | vacate | remove | demote | fade | adopt | forget => trivial

theorem permitted_none {answer : Option Answer} {move : Move TrackId SessionFrame}
    (h : Permitted none move) : Permitted answer move := by
  cases move with
  | enter index cause =>
    cases cause with
    | pause => trivial
    | handover batch => cases h
  | answer batch =>
    obtain ⟨_, h⟩ := h
    cases h
  | seat | stage | assign | release | vacate | remove | demote | fade | adopt | forget | send =>
    trivial

theorem moves_permitted {q q' : Queue W} (h : Moves none q q') (answer : Option Answer) :
    Moves answer q q' :=
  follows_mono (fun _ => permitted_none) h

theorem keeps_permitted {p : Run W ε α} (h : Keeps (Moves none) p) (answer : Option Answer) :
    Keeps (Moves answer) p :=
  h.mono fun _ _ hs => moves_permitted hs answer

/-- An update that shows on the board as the move, if it shows at all. -/
theorem moves_move {q q' : Queue W} {answer : Option Answer} (move : Move TrackId SessionFrame)
    (hmove : Permitted answer move) (he : Sound q.board → MixerBoard.Enabled q.board move)
    (h : Sound q.board → q'.board = MixerBoard.step q.board move) : Moves answer q q' :=
  follows_move hmove he h

theorem steady_update {f : Queue W → Queue W}
    (h : ∀ q, (f q).board = q.board ∧ (f q).target.map (·.item) = q.target.map (·.item)) :
    Keeps Steady (update f : Run W ε Unit) :=
  fun q => ⟨(h q).1, (h q).2⟩

/-- A track or a load is not seen on the board, nor is anything beside the entries. -/
theorem steady_modify {q q' : Queue W} {index : ℕ} {change : Active W.Track → Active W.Track}
    (hactive : q'.active = q.active.modify index change) (hcurrent : q'.current = q.current)
    (hpending : q'.pendingHandover = q.pendingHandover) (htarget : q'.target = q.target)
    (hchange : ∀ active, seat (change active) = seat active) : Steady q q' := by
  refine ⟨?_, by rw [htarget]⟩
  rw [Queue.board, hactive, hcurrent, hpending]
  exact view_modify hchange _ _ _ _

theorem steady_applyAt (index : ℕ) (command : TrackCommand W.toPayloads) :
    Keeps Steady (applyAt index command) := fun q => by
  unfold Leads applyAt
  split
  · exact ⟨rfl, rfl⟩
  · exact steady_modify rfl rfl rfl rfl fun _ => rfl

theorem steady_seekAt (index : ℕ) (position : W.Position) :
    Keeps Steady (seekAt index position) := fun q => by
  unfold Leads seekAt
  split
  · exact ⟨rfl, rfl⟩
  · exact steady_modify rfl rfl rfl rfl fun _ => rfl

theorem steady_prepareEntryAt (index : ℕ) (frame : SessionFrame) :
    Keeps Steady (prepareEntryAt index frame : Run W PlayError Bool) := fun q => by
  unfold Leads prepareEntryAt
  split
  · exact ⟨rfl, rfl⟩
  · exact steady_modify rfl rfl rfl rfl fun _ => rfl

theorem steady_finishGroupAt (sent : Option Seq) (index : ℕ) :
    Keeps Steady (finishGroupAt sent index : Run W PlayError Unit) := fun q => by
  unfold Leads finishGroupAt
  split
  · exact ⟨rfl, rfl⟩
  · exact steady_modify rfl rfl rfl rfl fun _ => rfl

theorem steady_settleSeek (q : Queue W) (active : Active W.Track) (settled : Settled)
    (batch : Batch) : Steady q (q.settleSeek active settled batch) := by
  unfold Queue.settleSeek
  split
  · split
    · exact ⟨rfl, rfl⟩
    · cases settled with
      | pending => exact ⟨rfl, rfl⟩
      | applied seq moment =>
        dsimp only
        split <;> exact ⟨rfl, rfl⟩
      | rejected seq reason =>
        dsimp only
        split <;> exact ⟨rfl, rfl⟩
  · exact ⟨rfl, rfl⟩

theorem steady_settleDeckAt (seq : Seq) (outcome : DeckOutcome)
    (sofar : List (ℕ × Settled) × Batch) (index : ℕ) :
    Keeps Steady (settleDeckAt (W := W) seq outcome sofar index) := fun q => by
  unfold Leads settleDeckAt
  split
  · exact ⟨rfl, rfl⟩
  · refine IsTrans.trans _ _ _ ?_ (steady_settleSeek _ _ _ _)
    exact steady_modify rfl rfl rfl rfl fun _ => rfl

theorem steady_settleEventAt (event : DeckEvent) (sofar : List (ℕ × Settled)) (index : ℕ) :
    Keeps Steady (settleEventAt (W := W) event sofar index) := fun q => by
  unfold Leads settleEventAt
  split
  · exact ⟨rfl, rfl⟩
  · exact steady_modify rfl rfl rfl rfl fun _ => rfl

theorem steady_settleLoadedAt (index : ℕ) (seq : Seq) (outcome : LoadOutcome) :
    Keeps Steady (settleLoadedAt (W := W) index seq outcome) := fun q => by
  unfold Leads settleLoadedAt
  split
  · exact ⟨rfl, rfl⟩
  · exact steady_modify rfl rfl rfl rfl fun _ => rfl

theorem steady_tickAt (now : SessionFrame) (index : ℕ) :
    Keeps Steady (tickAt (W := W) now index) := fun q => by
  unfold Leads tickAt
  split
  · exact ⟨rfl, rfl⟩
  · exact steady_modify rfl rfl rfl rfl fun _ => rfl

theorem steady_admitAt (change : W.Change) (entry : ℕ × CommandProtocol.When SessionFrame) :
    Keeps Steady (admitAt change entry) := fun q => by
  unfold Leads admitAt
  split
  · exact ⟨rfl, rfl⟩
  · exact steady_modify rfl rfl rfl rfl fun _ => rfl

theorem steady_tickParkedAt (now : SessionFrame) (index : ℕ) :
    Keeps Steady (tickParkedAt (W := W) now index) := fun q => by
  unfold Leads tickParkedAt
  split <;> exact ⟨rfl, rfl⟩

theorem steady_outside (f : W.Out → Except ε α × W.Out) : Keeps Steady (outside f) :=
  fun _ => ⟨rfl, rfl⟩

theorem steady_applyTo (track : W.Track) (command : TrackCommand W.toPayloads) :
    Keeps Steady (applyTo track command) :=
  fun _ => ⟨rfl, rfl⟩

theorem Steady.get {q q' : Queue W} (h : Steady q q') (index : ℕ) :
    (q'.active.get index).map seat = (q.active.get index).map seat := by
  have hentries : q'.active.entries.map seat = q.active.entries.map seat := by
    rw [← view_entries q'.active q'.current q'.pendingHandover,
      ← view_entries q.active q.current q.pendingHandover]
    exact congrArg Board.entries h.board
  rw [get_eq_entries, get_eq_entries, ← List.getElem?_map, ← List.getElem?_map, hentries]

theorem Steady.get_some {q q' : Queue W} (h : Steady q q') {index : ℕ} {active : Active W.Track}
    (hget : q.active.get index = some active) :
    ∃ active', q'.active.get index = some active' ∧ seat active' = seat active := by
  have := h.get index
  rw [hget] at this
  exact Option.map_eq_some_iff.mp this

theorem Steady.length {q q' : Queue W} (h : Steady q q') :
    q'.active.active.length = q.active.active.length := by
  have := congrArg (fun b => b.seated.length) h.board
  simpa [Queue.board, view] using this

theorem Steady.isReplacement {q q' : Queue W} (h : Steady q q') (index : ℕ) :
    q'.active.isReplacement index = q.active.isReplacement index := by
  have hstaged := congrArg (fun b => b.staged.length) h.board
  have hlen : q'.active.len = q.active.len := by
    rw [Slots.len, Slots.len, h.length]
    simpa [Queue.board, view] using hstaged
  rw [Slots.isReplacement, Slots.isReplacement, h.length, hlen]

end DeckQueue

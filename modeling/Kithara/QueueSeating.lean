import Kithara.QueueTakeovers

/-! What the loads of a deck's queue do on its board: a track takes a slot that nobody holds, or waits
staged behind a seat when every slot is held, once no other replacement waits. -/
namespace DeckQueue

open FollowedMoves
open MixerBoard (Board Seat Handover Move Sound isAhead)
open Navigation (TrackId AdvanceReason)
open CommandProtocol (When)
open QueueSlots QueueTracks StatefulPrograms StatefulPrograms.Program

variable {W : World} {ε α : Type}

theorem steady_startLoader (id : TrackId) (source : W.Source) (output : Option W.Output)
    (missing : PlayError) : Keeps Steady (startLoader id source output missing) := by
  unfold startLoader
  split
  · exact keeps_fail _
  · apply keeps_bind (steady_asQueue (keeps_require _ _))
    intro output
    exact steady_outside _

theorem steady_openTrack (id : TrackId) (slot : Option Slot) (held : Option W.Position)
    (output : Option W.Output) : Keeps Steady (openTrack id slot held output) := by
  apply keeps_bind (keeps_read _)
  intro full
  split
  · exact keeps_fail _
  · apply keeps_bind (keeps_read _)
    intro record
    apply keeps_bind (keeps_require _ _)
    intro record
    apply keeps_bind (keeps_read _)
    intro settings
    apply keeps_bind (steady_asQueue (steady_outside _))
    intro track
    apply keeps_bind (steady_startLoader id _ output _)
    rintro ⟨item, token⟩
    apply keeps_bind (steady_asQueue (steady_applyTo track _))
    rintro ⟨track, answer⟩
    cases answer with
    | error e => exact keeps_fail _
    | ok seq =>
      refine keeps_bind (steady_update fun _ => ?_) fun _ => keeps_pure _
      exact ⟨rfl, rfl⟩

theorem steady_parkRefused (parked : Parked W.Track) (error : PlayError) :
    Keeps Steady (parkRefused (α := α) parked error) := by
  apply keeps_bind (steady_asQueue (steady_applyTo _ _))
  intro track
  refine keeps_bind (steady_update fun _ => ?_) fun _ => keeps_fail _
  exact ⟨rfl, rfl⟩

theorem steady_seekParked (parked : Parked W.Track) : Keeps Steady (seekParked parked) := by
  apply keeps_bind (keeps_read _)
  intro held
  split
  · exact keeps_pure _
  · apply keeps_bind (steady_asQueue (steady_applyTo _ _))
    rintro ⟨track, answer⟩
    cases answer with
    | error e => exact steady_parkRefused _ e
    | ok seq =>
      refine keeps_bind (steady_update fun _ => ?_) fun _ => keeps_pure _
      exact ⟨rfl, rfl⟩

theorem steady_seatParked (parked : Parked W.Track) (slot : Slot) :
    Keeps Steady (seatParked parked slot) := by
  apply keeps_bind (steady_seekParked parked)
  intro parked
  apply keeps_bind (steady_asQueue (steady_applyTo _ _))
  rintro ⟨track, answer⟩
  cases answer with
  | error e => exact steady_parkRefused _ e
  | ok seq => exact keeps_pure _

theorem steady_takeHeld : Keeps Steady (update takeHeld : Run W ε Unit) :=
  steady_update fun q => by
    unfold takeHeld
    split <;> exact ⟨rfl, rfl⟩

theorem steady_openFresh (id : TrackId) (slot : Option Slot) (output : Option W.Output) :
    Keeps Steady (openFresh id slot output) := by
  apply keeps_bind (keeps_read _)
  intro held
  apply keeps_bind (steady_openTrack id slot held output)
  intro opened
  apply keeps_bind steady_takeHeld
  intro _
  exact keeps_pure _

theorem steady_stagedTrack (id : TrackId) (output : Option W.Output)
    (taken : Option (Parked W.Track)) : Keeps Steady (stagedTrack id output taken) := by
  unfold stagedTrack
  split
  · apply keeps_bind (steady_seekParked _)
    intro parked
    exact keeps_pure _
  · exact steady_openFresh id none output

theorem steady_seatedTrack (id : TrackId) (slot : Slot) (output : Option W.Output)
    (taken : Option (Parked W.Track)) : Keeps Steady (seatedTrack id slot output taken) := by
  unfold seatedTrack
  split
  · apply keeps_bind (steady_seatParked _ slot)
    intro parked
    exact keeps_pure _
  · exact steady_openFresh id (some slot) output

/-- No staged entry waits for its seat. -/
def Queue.idle (q : Queue W) : Prop := ∀ active ∈ q.active.staged, active.role = .leaving

theorem idle_of_board {q q' : Queue W} (h : q'.board.staged = q.board.staged) (hidle : q.idle) :
    q'.idle := fun active ha => by
  have hmem : seat active ∈ q.board.staged := h ▸ List.mem_map_of_mem ha
  obtain ⟨active', ha', hseat⟩ := List.mem_map.mp hmem
  exact (congrArg Seat.role hseat).symm.trans (hidle active' ha')

theorem moves_dropReplacement (index : Option ℕ) :
    Keeps (Moves none) (dropReplacement (W := W) index) := by
  unfold dropReplacement
  split
  · exact keeps_pure ()
  · apply keeps_bind (moves_asQueue (moves_releaseTrack _))
    intro _
    exact keeps_reapReleased

theorem leave_idle {q : Queue W} (hsound : Sound q.board) {k : ℕ} {active : Active W.Track}
    (hget : q.active.staged[k]? = some active) (hwaits : active.role ≠ .leaving) :
    (q.leave (q.active.active.length + k)
      (q.active.isReplacement (q.active.active.length + k))).idle := fun other hother => by
  have hentry : q.active.get (q.active.active.length + k) = some active := by
    rw [Slots.get, if_pos (by omega), Nat.add_sub_cancel_left, hget]
  have hstaged : q.board.staged[k]? = some (seat active) := by
    rw [Queue.board, view, List.getElem?_map, hget]
    rfl
  have hall := MixerBoard.release_waiting hsound hstaged hwaits
  have hlen : q.board.seated.length = q.active.active.length := List.length_map seat
  rw [hlen, ← board_leave hentry] at hall
  exact hall _ (List.mem_map_of_mem hother)

theorem reapReleased_staged {q : Queue W} {active : Active W.Track}
    (h : active ∈ q.reapReleased.active.staged) : active ∈ q.active.staged :=
  reapAll_staged (q := q.reapParked) h

theorem dropReplacement_idle {q q' : Queue W} (hsound : Sound q.board)
    (hrun : dropReplacement q.active.replacementIndex q = (.ok (), q')) : q'.idle := by
  cases hindex : q.active.staged.findIdx? fun active => active.role != .leaving with
  | none =>
    rw [Slots.replacementIndex, hindex] at hrun
    cases hrun
    exact fun active ha => by simpa using List.findIdx?_eq_none_iff.mp hindex active ha
  | some k =>
    rw [Slots.replacementIndex, hindex] at hrun
    obtain ⟨sent, q₁, hrelease, hreap⟩ := bind_run hrun
    obtain ⟨q₂, hsteady, rfl⟩ := releaseTrack_run (mapError_run hrelease)
    cases hreap
    obtain ⟨hk, hwaits, _⟩ := List.findIdx?_eq_some_iff_getElem.mp hindex
    have hget : (q₂.active.staged[k]?).map seat = some (seat q.active.staged[k]) := by
      have hstaged := congrArg (fun b => b.staged[k]?) hsteady.board
      simpa [Queue.board, view, List.getElem?_eq_getElem hk] using hstaged
    obtain ⟨active, hactive, hseat⟩ := Option.map_eq_some_iff.mp hget
    have hrole : active.role ≠ .leaving := by
      rw [show active.role = _ from congrArg Seat.role hseat]
      simpa [seat] using hwaits
    have hsound₂ : Sound q₂.board := hsteady.board ▸ hsound
    have hidle := leave_idle hsound₂ hactive hrole
    rw [hsteady.length] at hidle
    exact fun other hother => hidle other (reapReleased_staged hother)

theorem mem_minBy {cmp : α → α → Ordering} {as : List α} {a : α} (h : minBy cmp as = some a) :
    a ∈ as := by
  have hfold : ∀ (as : List α) (best : α),
      as.foldl (fun best x => if cmp best x = .gt then x else best) best ∈ best :: as := by
    intro as
    induction as with
    | nil => exact fun best => List.mem_singleton_self best
    | cons x as ih =>
      intro best
      rw [List.foldl_cons]
      split
      · exact List.mem_cons_of_mem best (ih x)
      · rcases List.mem_cons.mp (ih best) with heq | hmem
        · rw [heq]
          exact List.mem_cons_self
        · exact List.mem_cons_of_mem best (List.mem_cons_of_mem x hmem)
  cases as with
  | nil => cases h
  | cons x as =>
    cases h
    exact hfold as x

/-- The victim is a seated entry. -/
theorem quietest_seated {s : Slots W.Track} {louder : Slot → Slot → Ordering} {index : ℕ}
    (h : s.quietest louder = some index) {active : Active W.Track}
    (hget : s.get index = some active) : active ∈ s.active := by
  obtain ⟨⟨victim, index⟩, hmin, rfl⟩ := Option.map_eq_some_iff.mp h
  have hseated := List.mem_zipIdx_iff_getElem?.mp (mem_minBy hmin)
  have hlt := (List.getElem?_eq_some_iff.mp hseated).1
  rw [Slots.get, if_neg (by omega), hseated] at hget
  cases hget
  exact List.mem_of_getElem? hseated

/-- The slot a replacement waits for is that of a seated entry, and no other replacement waits. -/
theorem stagingSlot_run {id : TrackId} {q q' : Queue W} {slot : Slot} (hsound : Sound q.board)
    (hrun : stagingSlot id q = (.ok slot, q')) :
    q'.idle ∧ ∃ active ∈ q'.active.active, active.slot = slot := by
  rw [stagingSlot, read_bind] at hrun
  obtain ⟨_, q₁, hdrop, hpick⟩ := bind_run hrun
  rw [read_bind] at hpick
  obtain ⟨victim, q₂, hvictim, hlook⟩ := bind_run hpick
  obtain ⟨hquiet, rfl⟩ := require_run hvictim
  rw [read_bind] at hlook
  obtain ⟨active, q₃, hactive, hslot⟩ := bind_run hlook
  obtain ⟨hget, rfl⟩ := require_run hactive
  cases hslot
  exact ⟨dropReplacement_idle hsound hdrop, active, quietest_seated hquiet hget, rfl⟩

theorem moves_stagingSlot (id : TrackId) : Keeps (Moves none) (stagingSlot (W := W) id) := by
  apply keeps_bind (keeps_read _)
  intro waiting
  apply keeps_bind (moves_dropReplacement waiting)
  intro _
  apply keeps_bind (keeps_read _)
  intro victim
  apply keeps_bind (keeps_require _ _)
  intro victim
  apply keeps_bind (keeps_read _)
  intro active
  apply keeps_bind (keeps_require _ _)
  intro active
  exact keeps_pure _

theorem moves_parkBack (taken : Option (Parked W.Track)) :
    Keeps (Moves none) (update (parkBack taken) : Run W ε Unit) :=
  moves_aside fun q => by
    unfold parkBack
    split <;> rfl

theorem moves_stage {q : Queue W} {id : TrackId} {slot : Slot} {role : Role} (hidle : q.idle)
    (hslot : ∃ active ∈ q.active.active, active.slot = slot) (hrole : isAhead role)
    (track : W.Track) (load : Option LoadState) :
    Moves none q { q with active := q.active.stage ⟨id, slot, track, role, load⟩ } := by
  refine moves_move (.stage ⟨id, slot.toNat, role⟩) (permitted_of_plain rfl)
    (fun _ => ⟨hrole, fun e he => ?_, ?_⟩) fun _ => view_stage _ _ _ _
  · obtain ⟨active, ha, rfl⟩ := List.mem_map.mp he
    exact hidle active ha
  · obtain ⟨active, ha, rfl⟩ := hslot
    exact ⟨seat active, List.mem_map_of_mem ha, rfl⟩

theorem Steady.idle {q q' : Queue W} (h : Steady q q') (hidle : q.idle) : q'.idle :=
  idle_of_board (congrArg Board.staged h.board) hidle

theorem Steady.mem_seated {q q' : Queue W} (h : Steady q q') {slot : Slot}
    (hslot : ∃ active ∈ q.active.active, active.slot = slot) :
    ∃ active ∈ q'.active.active, active.slot = slot := by
  obtain ⟨active, ha, rfl⟩ := hslot
  have hmem : seat active ∈ q'.board.seated := h.board ▸ List.mem_map_of_mem ha
  obtain ⟨active', ha', hseat⟩ := List.mem_map.mp hmem
  exact ⟨active', ha', UInt16.toNat_inj.mp (congrArg Seat.slot hseat)⟩

theorem moves_evictFor (id : TrackId) {role : Role} (hrole : isAhead role)
    (taken : Option (Parked W.Track)) (output : Option W.Output) :
    Keeps (Moves none) (evictFor id role taken output) := fun q hsound => by
  refine leads_bind (keeps_attempt (moves_stagingSlot id) q) (fun outcome q₁ hattempt => ?_) hsound
  cases outcome with
  | error e => exact keeps_bind (moves_parkBack taken) (fun _ => keeps_fail e) q₁
  | ok slot =>
    obtain ⟨hidle, hslot⟩ := stagingSlot_run hsound (attempt_run hattempt)
    refine leads_bind (keeps_moves (steady_stagedTrack id output taken) none q₁)
      fun opened q₂ hopened => ?_
    have hsteady := steady_run (steady_stagedTrack id output taken) hopened
    refine leads_bind ?_ fun _ q₃ _ => leads_pure _ q₃
    exact moves_stage (hsteady.idle hidle) (hsteady.mem_seated hslot) hrole opened.1 opened.2

/-- No entry of the queue holds the slot, which is one of the mixer's. -/
def Queue.free (q : Queue W) (slot : Slot) : Prop :=
  slot.toNat < q.active.capacity ∧ ∀ active ∈ q.active.entries, active.slot ≠ slot

theorem freeSlot_free {q : Queue W} {slot : Slot} (h : q.active.freeSlot = some slot) :
    q.free slot := by
  obtain ⟨index, hfind, hslot⟩ := Option.bind_eq_some_iff.mp h
  split at hslot
  case isFalse => cases hslot
  case isTrue hlt =>
    have hnat : slot.toNat = index := by
      rw [← Option.some.inj hslot, UInt16.toNat_ofNat', Nat.mod_eq_of_lt hlt]
    refine ⟨?_, fun active ha heq => ?_⟩
    · rw [hnat]
      exact List.mem_range.mp (List.mem_of_find?_eq_some hfind)
    · have hall := List.find?_some hfind
      have hne := List.all_eq_true.mp hall active ha
      rw [heq, hnat] at hne
      simp at hne

theorem Steady.free {q q' : Queue W} (h : Steady q q') {slot : Slot} (hfree : q.free slot) :
    q'.free slot := by
  have hcapacity : q'.active.capacity = q.active.capacity := congrArg Board.capacity h.board
  refine ⟨by rw [hcapacity]; exact hfree.1, fun active ha heq => ?_⟩
  have hentries : q'.active.entries.map seat = q.active.entries.map seat := by
    rw [← view_entries q'.active q'.current q'.pendingHandover,
      ← view_entries q.active q.current q.pendingHandover]
    exact congrArg Board.entries h.board
  obtain ⟨active', ha', hseat⟩ := List.mem_map.mp (hentries ▸ List.mem_map_of_mem ha)
  exact hfree.2 active' ha' ((UInt16.toNat_inj.mp (congrArg Seat.slot hseat)).trans heq)

theorem moves_push {q : Queue W} {id : TrackId} {slot : Slot} {role : Role} (hfree : q.free slot)
    (hrole : isAhead role) (track : W.Track) (load : Option LoadState) :
    Moves none q { q with active := q.active.push ⟨id, slot, track, role, load⟩ } := by
  refine moves_move (.seat ⟨id, slot.toNat, role⟩) (permitted_of_plain rfl)
    (fun _ => ⟨hrole, hfree.1, fun e he heq => ?_⟩) fun _ => view_push _ _ _ _
  rw [Queue.board, view_entries] at he
  obtain ⟨active, ha, rfl⟩ := List.mem_map.mp he
  exact hfree.2 active ha (UInt16.toNat_inj.mp heq)

theorem leads_seatTrack {q : Queue W} {slot : Slot} (hfree : q.free slot) (id : TrackId)
    {role : Role} (hrole : isAhead role) (taken : Option (Parked W.Track))
    (output : Option W.Output) : Leads (Moves none) (seatTrack id role slot taken output) q := by
  refine leads_bind (keeps_moves (steady_seatedTrack id slot output taken) none q)
    fun opened q₁ hopened => ?_
  have hsteady := steady_run (steady_seatedTrack id slot output taken) hopened
  refine leads_bind ?_ fun _ q₂ _ => leads_pure _ q₂
  exact moves_push (hsteady.free hfree) hrole opened.1 opened.2

/-- A load that finds an entry of its item uses it as it is, unless it is the current one. -/
theorem moves_reuse {q : Queue W} {id : TrackId} {index : ℕ} (h : q.reusable id = some index)
    {role : Role} (hrole : isAhead role) {active : Active W.Track}
    (hget : q.active.get index = some active) :
    Moves none q (if active.role = .current then q else q.setRole index role) := by
  obtain ⟨active', hget', hfind⟩ := get_of_position h
  rw [hget] at hget'
  cases hget'
  split
  case isTrue => exact follows_of_eq rfl
  case isFalse hcur =>
    refine moves_assign hget hrole hcur fun hleft => ?_
    simp [hleft] at hfind

theorem moves_loadTrack (id : TrackId) {role : Role} (hrole : isAhead role)
    (output : Option W.Output) : Keeps (Moves none) (loadTrack id role output) := fun q => by
  apply leads_read_bind
  split
  case h_1 index hindex =>
    apply leads_read_bind
    refine leads_require_bind fun active hget => ?_
    refine leads_bind ?_ fun _ q' _ => leads_pure _ q'
    exact moves_reuse hindex hrole hget
  case h_2 =>
    refine keeps_bind (moves_aside fun q => ?_) (fun _ => keeps_bind (keeps_read _) fun full => ?_) q
    · split <;> rfl
    · split
      · exact keeps_fail _
      · apply keeps_bind (keeps_read _)
        intro index
        apply keeps_bind (keeps_read _)
        intro taken
        refine keeps_bind (moves_aside fun q => ?_) fun _ => ?_
        · split <;> rfl
        · intro q'
          apply leads_read_bind
          cases hfree : q'.active.freeSlot with
          | none => exact moves_evictFor id hrole taken output q'
          | some slot => exact leads_seatTrack (freeSlot_free hfree) id hrole taken output

theorem moves_dropPreloaded (id : TrackId) : Keeps (Moves none) (dropPreloaded (W := W) id) := by
  apply keeps_bind (keeps_read _)
  intro others
  apply keeps_bind (keeps_forEach moves_consume others)
  intro _
  exact keeps_reapReleased

theorem moves_beginTransition (request : TransitionRequest) (settings : CrossfadeSettings)
    (bound : Option Bound) (output : Option W.Output) :
    Keeps (Moves none) (beginTransition request settings bound output) := by
  apply keeps_bind moves_cancelTarget
  intro _
  apply keeps_bind (keeps_whenever fun _ => moves_dropPreloaded _)
  intro _
  refine keeps_bind (moves_aside fun _ => ?_) fun _ => ?_
  · rfl
  apply keeps_bind (keeps_attempt (moves_loadTrack _ (.inl rfl) output))
  intro outcome
  cases outcome with
  | error e =>
    refine keeps_bind (moves_aside fun _ => ?_) fun _ => keeps_fail e
    rfl
  | ok load =>
    apply keeps_bind (keeps_attempt moves_transitionLoaded)
    intro outcome
    cases outcome with
    | error e =>
      apply keeps_bind moves_cancelTarget
      intro _
      exact keeps_fail _
    | ok sent => exact keeps_pure _

theorem moves_retargetRequest (request : TransitionRequest) (settings : CrossfadeSettings) :
    Keeps (Moves none) (retargetRequest (W := W) request settings) := by
  apply keeps_bind (keeps_read _)
  intro target
  apply keeps_bind (moves_asQueue (keeps_require _ _))
  intro target
  refine keeps_bind (moves_aside fun _ => ?_) fun _ => ?_
  · rfl
  apply keeps_bind (keeps_read _)
  intro load
  apply keeps_bind (moves_asQueue moves_transitionLoaded)
  intro sent
  exact keeps_pure _

theorem steady_transport (command : TrackCommand W.toPayloads) :
    Keeps Steady (transport command) := by
  apply keeps_bind (keeps_read _)
  intro index
  apply keeps_bind (keeps_require _ _)
  intro index
  exact steady_applyAt index command

theorem moves_requestTransition (request : TransitionRequest) (output : Option W.Output) :
    Keeps (Moves none) (requestTransition request output) := by
  apply keeps_bind (keeps_read _)
  intro crossfade
  apply keeps_bind (moves_asQueue (keeps_ofExcept _))
  intro settings
  apply keeps_bind (keeps_read _)
  intro playsOn
  split
  · apply keeps_bind (keeps_read _)
    intro requested
    apply keeps_bind (keeps_whenever fun _ => moves_cancelTarget)
    intro _
    exact moves_asQueue (keeps_moves (steady_transport _) none)
  · apply keeps_bind (keeps_read _)
    intro again
    split
    · exact moves_retargetRequest request settings
    · split
      · apply keeps_bind (moves_asQueue (keeps_moves (steady_autoBound settings) none))
        intro bound
        exact moves_beginTransition request settings bound output
      · apply keeps_bind (moves_asQueue (keeps_moves steady_earliest none))
        intro frame
        exact moves_beginTransition request settings _ output

theorem steady_drawNext (cursor : Queue W → Option TrackId) (allowRepeatOne : Bool) :
    Keeps Steady (drawNext cursor allowRepeatOne) :=
  fun _ => ⟨rfl, rfl⟩

theorem moves_nextTarget (transition : Transition) (reason : AdvanceReason) (auto playing : Bool)
    (output : Option W.Output) :
    Keeps (Moves none) (nextTarget transition reason auto playing output) := by
  apply keeps_bind (keeps_moves (steady_drawNext _ _) none)
  intro id
  split
  · refine keeps_bind (moves_aside fun _ => ?_) fun _ => keeps_pure none
    split <;> rfl
  · exact moves_requestTransition _ output

theorem moves_armInitialLoad (output : Option W.Output) :
    Keeps (Moves none) (armInitialLoad output) := by
  apply keeps_bind (keeps_read _)
  intro idle
  split
  · exact keeps_pure ()
  · apply keeps_bind (keeps_read _)
    intro autoplay
    apply keeps_bind (keeps_attempt (moves_nextTarget _ _ _ _ output))
    intro _
    exact keeps_pure ()

theorem steady_pumpLoad (output : Option W.Output) : Keeps Steady (pumpLoad output) := by
  apply keeps_bind (keeps_read _)
  intro mayPark
  split
  · apply keeps_bind (keeps_read _)
    intro record
    split
    · exact keeps_pure false
    · apply keeps_bind (keeps_attempt (steady_openTrack _ none none output))
      intro outcome
      split
      · refine keeps_bind (steady_update fun _ => ?_) fun _ => keeps_pure true
        exact ⟨rfl, rfl⟩
      · exact keeps_pure false
      · exact keeps_pure false
      · refine keeps_bind (steady_update fun _ => ?_) fun _ => keeps_pure true
        exact ⟨rfl, rfl⟩
  · exact keeps_pure false

theorem steady_pumpRounds (output : Option W.Output) :
    ∀ rounds, Keeps Steady (pumpRounds output rounds)
  | 0 => keeps_pure ()
  | rounds + 1 => by
    apply keeps_bind (steady_pumpLoad output)
    intro more
    split
    · exact steady_pumpRounds output rounds
    · exact keeps_pure ()

theorem steady_pumpLoads (output : Option W.Output) : Keeps Steady (pumpLoads output) := by
  apply keeps_bind (keeps_read _)
  intro shutdown
  split
  · exact keeps_pure ()
  · split
    · exact keeps_pure ()
    · apply keeps_bind (keeps_read _)
      intro rounds
      exact steady_pumpRounds output rounds

end DeckQueue

import Kithara.TransitionSystem
import Kithara.QueueSlots
import Mathlib.Data.List.Nodup
import Mathlib.Tactic.Common

/-! A mixer with numbered slots, apart from the tracks that play on it: who sits where and in which
part, who waits staged behind a seat, which seat fades out, and which item is the current one. An
item becomes the current one only by entering, from the seat it has or by taking the seat it waits
behind. -/
namespace MixerBoard

open TransitionSystem
open QueueSlots (Role)

structure Seat (ι : Type) where
  item : ι
  slot : ℕ
  role : Role
  deriving DecidableEq

/-- The batch that hands over to an entry: its number, and the entry by item, slot and place. -/
structure Handover (ι : Type) where
  batch : ℕ
  item : ι
  slot : ℕ
  staged : Bool
  deriving DecidableEq

structure Board (ι τ : Type) where
  capacity : ℕ
  seated : List (Seat ι)
  staged : List (Seat ι)
  fades : List (Option τ)
  current : Option ι
  pending : Option (Handover ι)

variable {ι τ : Type}

def Seat.put (role : Role) (e : Seat ι) : Seat ι := { e with role := role }

def isCurrent (e : Seat ι) : Bool := e.role == .current

def isWaiting (e : Seat ι) : Bool := e.role != .leaving

/-- Neither an item that sounds nor one that is gone. -/
def isAhead (role : Role) : Prop := role = .incoming ∨ role = .preloaded

namespace Board

def new (capacity : ℕ) : Board ι τ := ⟨capacity, [], [], .replicate capacity none, none, none⟩

def entries (b : Board ι τ) : List (Seat ι) := b.seated ++ b.staged

def modify (b : Board ι τ) (i : ℕ) (role : Role) : Board ι τ :=
  if b.seated.length ≤ i then
    { b with staged := b.staged.modify (i - b.seated.length) (Seat.put role) }
  else { b with seated := b.seated.modify i (Seat.put role) }

def clearFade (b : Board ι τ) (slot : ℕ) : Board ι τ := { b with fades := b.fades.set slot none }

/-- A seated entry that leaves takes the fade of its slot along. -/
def release (b : Board ι τ) (i : ℕ) : Board ι τ :=
  match b.seated[i]? with
  | some e => (b.modify i .leaving).clearFade e.slot
  | none => b.modify i .leaving

def remove (b : Board ι τ) (i : ℕ) : Board ι τ :=
  match b.seated[i]? with
  | some e => { b with seated := b.seated.eraseIdx i }.clearFade e.slot
  | none => { b with staged := b.staged.eraseIdx (i - b.seated.length) }

def vacate (b : Board ι τ) : Board ι τ :=
  { b with seated := b.seated.map (Seat.put .leaving), staged := b.staged.map (Seat.put .leaving) }

def demote (b : Board ι τ) : Board ι τ :=
  { b with seated := b.seated.map fun e => if isCurrent e then e.put .outgoing else e }

/-- The entry that has the slot makes room, if there is one. -/
def takeSeat (seats : List (Seat ι)) (e : Seat ι) : List (Seat ι) :=
  match seats.findIdx? (·.slot == e.slot) with
  | some i => seats.set i e
  | none => seats ++ [e]

def enter (b : Board ι τ) (i : ℕ) : Board ι τ :=
  match b.seated[i]? with
  | some e => { b with seated := b.seated.modify i (Seat.put .current), current := some e.item }
  | none => match b.staged[i - b.seated.length]? with
    | some e => { b with
        staged := b.staged.eraseIdx (i - b.seated.length)
        seated := takeSeat b.seated (e.put .current)
        current := some e.item }.clearFade e.slot
    | none => b

end Board

/-- Why an entry becomes the current one: the batch that handed over to it, or a pause. -/
inductive Cause where
  | handover (batch : ℕ)
  | pause
  deriving DecidableEq

inductive Move (ι τ : Type) where
  | seat (e : Seat ι)
  | stage (e : Seat ι)
  | assign (i : ℕ) (role : Role)
  | release (i : ℕ)
  | vacate
  | remove (i : ℕ)
  | demote
  | fade (slot : ℕ) (finish : τ)
  | enter (i : ℕ) (cause : Cause)
  | adopt (item : ι)
  | forget
  | send (h : Handover ι)
  | answer (batch : ℕ)

/-- What lets the entry at the index enter: a pause finds it incoming, and a batch must be the pending
one and name the entry. -/
def Lets (b : Board ι τ) (i : ℕ) (e : Seat ι) : Cause → Prop
  | .pause => e.role = .incoming
  | .handover batch => ∃ h, b.pending = some h ∧ h.batch = batch ∧ h.item = e.item ∧
      h.slot = e.slot ∧ (h.staged = true ↔ b.seated.length ≤ i)

def Enabled (b : Board ι τ) : Move ι τ → Prop
  | .seat e => isAhead e.role ∧ e.slot < b.capacity ∧ ∀ f ∈ b.entries, f.slot ≠ e.slot
  | .stage e => isAhead e.role ∧ (∀ f ∈ b.staged, f.role = .leaving) ∧
      ∃ f ∈ b.seated, f.slot = e.slot
  | .assign i role => isAhead role ∧ ∃ e, b.entries[i]? = some e ∧ e.role ≠ .current ∧
      e.role ≠ .leaving
  | .release i => ∃ e, b.entries[i]? = some e
  | .remove i => ∃ e, b.entries[i]? = some e ∧ ∀ h, b.pending = some h → h.item ≠ e.item
  | .fade slot _ => ∃ e ∈ b.seated, e.slot = slot ∧ e.role = .outgoing
  | .enter i cause => (∀ e ∈ b.seated, e.role ≠ .current) ∧
      ∃ e, b.entries[i]? = some e ∧ Lets b i e cause
  | .adopt item => b.current = none ∧ ∃ e ∈ b.seated, e.role = .current ∧ e.item = item
  | .send h => b.pending = none ∧ ∃ e ∈ if h.staged then b.staged else b.seated,
      e.item = h.item ∧ e.slot = h.slot ∧ e.role = .incoming
  | .answer batch => ∃ h, b.pending = some h ∧ h.batch = batch
  | .vacate | .demote | .forget => True

def step (b : Board ι τ) : Move ι τ → Board ι τ
  | .seat e => { b with seated := b.seated ++ [e] }
  | .stage e => { b with staged := b.staged ++ [e] }
  | .assign i role => b.modify i role
  | .release i => b.release i
  | .vacate => b.vacate
  | .remove i => b.remove i
  | .demote => b.demote
  | .fade slot finish => { b with fades := b.fades.set slot (some finish) }
  | .enter i .pause => b.enter i
  | .enter i (.handover _) => { b.enter i with pending := none }
  | .adopt item => { b with current := some item }
  | .forget => { b with current := none }
  | .send h => { b with pending := some h }
  | .answer _ => { b with pending := none }

def machine : Machine (Board ι τ) (Move ι τ) where
  Enabled := Enabled
  next := step

/-- What holds of the board whatever happens on it. -/
structure Sound (b : Board ι τ) : Prop where
  /-- One seated entry at most is the current one, and no staged one is. -/
  single : b.seated.countP isCurrent ≤ 1
  staged : ∀ e ∈ b.staged, e.role ≠ .current
  /-- It is the entry of the current item. -/
  named : ∀ item, b.current = some item → ∀ e ∈ b.seated, e.role = .current → e.item = item
  /-- Seats are not shared, and every slot is one of the mixer's. -/
  apart : (b.seated.map (·.slot)).Nodup
  seated_lt : ∀ e ∈ b.seated, e.slot < b.capacity
  staged_lt : ∀ e ∈ b.staged, e.slot < b.capacity
  /-- One replacement at most waits. -/
  waiting : b.staged.countP isWaiting ≤ 1
  /-- A fade is a seated entry's. -/
  length : b.fades.length = b.capacity
  faded : ∀ (slot : ℕ) (finish : τ), b.fades[slot]? = some (some finish) →
    ∃ e ∈ b.seated, e.slot = slot

theorem new_sound (capacity : ℕ) : Sound (Board.new capacity : Board ι τ) where
  single := Nat.zero_le 1
  staged := fun _ he => absurd he List.not_mem_nil
  named := fun _ _ _ he => absurd he List.not_mem_nil
  apart := List.nodup_nil
  seated_lt := fun _ he => absurd he List.not_mem_nil
  staged_lt := fun _ he => absurd he List.not_mem_nil
  waiting := Nat.zero_le 1
  length := List.length_replicate
  faded := fun slot finish h => by
    rw [Board.new, List.getElem?_replicate] at h
    split at h <;> cases h

@[simp] theorem put_slot (role : Role) (e : Seat ι) : (e.put role).slot = e.slot := rfl

@[simp] theorem put_role (role : Role) (e : Seat ι) : (e.put role).role = role := rfl

@[simp] theorem put_item (role : Role) (e : Seat ι) : (e.put role).item = e.item := rfl

theorem mem_modify {seats : List (Seat ι)} {i : ℕ} {role : Role} {e : Seat ι}
    (h : e ∈ seats.modify i (Seat.put role)) :
    e ∈ seats ∨ ∃ f ∈ seats, seats[i]? = some f ∧ e = f.put role := by
  obtain ⟨j, hj, he⟩ := List.getElem_of_mem h
  rw [List.getElem_modify] at he
  rw [List.length_modify] at hj
  split at he
  case isTrue hij =>
    exact .inr ⟨seats[j], List.getElem_mem hj, by rw [hij, List.getElem?_eq_getElem hj], he.symm⟩
  case isFalse => exact .inl (he ▸ List.getElem_mem hj)

theorem map_slot_modify (seats : List (Seat ι)) (i : ℕ) (role : Role) :
    (seats.modify i (Seat.put role)).map (·.slot) = seats.map (·.slot) := by
  refine List.ext_getElem (by simp) fun j _ _ => ?_
  rw [List.getElem_map, List.getElem_map, List.getElem_modify]
  split <;> rfl

theorem slot_of_modify {seats : List (Seat ι)} {i : ℕ} {role : Role} {e : Seat ι}
    (h : e ∈ seats.modify i (Seat.put role)) : ∃ f ∈ seats, f.slot = e.slot := by
  rcases mem_modify h with h | ⟨f, hf, _, rfl⟩
  · exact ⟨e, h, rfl⟩
  · exact ⟨f, hf, rfl⟩

theorem slot_in_modify {seats : List (Seat ι)} {slot : ℕ} (i : ℕ) (role : Role)
    (h : ∃ e ∈ seats, e.slot = slot) :
    ∃ e ∈ seats.modify i (Seat.put role), e.slot = slot := by
  have hmem : slot ∈ (seats.modify i (Seat.put role)).map (·.slot) := by
    rw [map_slot_modify]
    exact List.mem_map.mpr h
  exact List.mem_map.mp hmem

theorem countP_modify (p : Seat ι → Bool) {seats : List (Seat ι)} {i : ℕ} (role : Role)
    (hi : i < seats.length) : (seats.modify i (Seat.put role)).countP p =
      seats.countP p - (if p seats[i] then 1 else 0) + (if p (seats[i].put role) then 1 else 0) := by
  rw [List.modify_eq_set_get _ hi, List.countP_set hi, List.get_eq_getElem]

theorem countP_modify_le (p : Seat ι → Bool) {seats : List (Seat ι)} {i : ℕ} {role : Role}
    (h : ∀ e, seats[i]? = some e → p (e.put role) = true → p e = true) :
    (seats.modify i (Seat.put role)).countP p ≤ seats.countP p := by
  by_cases hi : i < seats.length
  · rw [countP_modify p role hi]
    have hp := h seats[i] (List.getElem?_eq_getElem hi)
    have hpos : p seats[i] = true → 0 < seats.countP p := fun hp =>
      List.countP_pos_iff.mpr ⟨_, List.getElem_mem hi, hp⟩
    by_cases hnew : p (seats[i].put role) = true
    · have hold := hp hnew
      have := hpos hold
      rw [if_pos hold, if_pos hnew]
      omega
    · rw [if_neg hnew]
      omega
  · rw [List.modify_eq_self (by omega)]

theorem not_current_of_count {seats : List (Seat ι)} (h : ∀ e ∈ seats, e.role ≠ .current) :
    seats.countP isCurrent = 0 :=
  List.countP_eq_zero.mpr fun e he => by simpa [isCurrent] using h e he

theorem current_unique {b : Board ι τ} (h : Sound b) {e f : Seat ι} (he : e ∈ b.seated)
    (hf : f ∈ b.seated) (hecur : e.role = .current) (hfcur : f.role = .current) : e = f := by
  have hmem : ∀ g ∈ b.seated, g.role = .current → g ∈ b.seated.filter isCurrent :=
    fun g hg hcur => List.mem_filter.mpr ⟨hg, by simp [isCurrent, hcur]⟩
  have hlen : (b.seated.filter isCurrent).length ≤ 1 := List.countP_eq_length_filter ▸ h.single
  have he' := hmem e he hecur
  have hf' := hmem f hf hfcur
  match hfilter : b.seated.filter isCurrent with
  | [] =>
    rw [hfilter] at he'
    cases he'
  | [g] =>
    rw [hfilter, List.mem_singleton] at he' hf'
    exact he'.trans hf'.symm
  | g :: g' :: others =>
    rw [hfilter, List.length_cons, List.length_cons] at hlen
    omega

theorem idle_of_count {seats : List (Seat ι)} (h : ∀ e ∈ seats, e.role = .leaving) :
    seats.countP isWaiting = 0 :=
  List.countP_eq_zero.mpr fun e he => by simp [isWaiting, h e he]

/-- A part that is not the current one, taken by an entry that waits no more than before. -/
theorem sound_modify {b : Board ι τ} (h : Sound b) {i : ℕ} {role : Role} (hrole : role ≠ .current)
    (hwaits : ∀ e ∈ b.staged, isWaiting (e.put role) = true → isWaiting e = true) :
    Sound (b.modify i role) := by
  have hone : (b.seated.modify i (Seat.put role)).countP isCurrent ≤ b.seated.countP isCurrent :=
    countP_modify_le _ fun e _ hp => absurd (by simpa [isCurrent] using hp) hrole
  have hwait : ∀ j, (b.staged.modify j (Seat.put role)).countP isWaiting ≤
      b.staged.countP isWaiting := fun j =>
    countP_modify_le _ fun e he hp => hwaits e (List.mem_of_getElem? he) hp
  unfold Board.modify
  split
  · refine { h with staged := fun e he => ?_, staged_lt := fun e he => ?_, waiting := ?_ }
    · rcases mem_modify he with he | ⟨f, _, _, rfl⟩
      · exact h.staged e he
      · exact hrole
    · obtain ⟨f, hf, hslot⟩ := slot_of_modify he
      exact hslot ▸ h.staged_lt f hf
    · exact le_trans (hwait _) h.waiting
  · refine { h with
      single := le_trans hone h.single
      named := fun item hitem e he hcur => ?_
      apart := ?_
      seated_lt := fun e he => ?_
      faded := fun slot finish hf => slot_in_modify i role (h.faded slot finish hf) }
    · rcases mem_modify he with he | ⟨f, _, _, rfl⟩
      · exact h.named item hitem e he hcur
      · exact absurd hcur hrole
    · exact (map_slot_modify b.seated i role).symm ▸ h.apart
    · obtain ⟨f, hf, hslot⟩ := slot_of_modify he
      exact hslot ▸ h.seated_lt f hf

theorem sound_clearFade {b : Board ι τ} (h : Sound b) (slot : ℕ) : Sound (b.clearFade slot) :=
  { h with
    length := by rw [Board.clearFade, List.length_set, h.length]
    faded := fun k finish hf => by
      rw [Board.clearFade, List.getElem?_set] at hf
      split at hf
      · split at hf <;> cases hf
      · exact h.faded k finish hf }

theorem sound_release {b : Board ι τ} (h : Sound b) (i : ℕ) : Sound (b.release i) := by
  have hmod : Sound (b.modify i .leaving) := sound_modify h (by decide) fun e _ hp => by
    cases hp
  unfold Board.release
  split
  · exact sound_clearFade hmod _
  · exact hmod

theorem sound_remove {b : Board ι τ} (h : Sound b) (i : ℕ) : Sound (b.remove i) := by
  unfold Board.remove
  split
  case h_1 e he =>
    have hsub : (b.seated.eraseIdx i).Sublist b.seated := List.eraseIdx_sublist _ _
    refine { h with
      single := le_trans hsub.countP_le h.single
      named := fun item hitem f hf hcur => h.named item hitem f (hsub.subset hf) hcur
      apart := h.apart.sublist (hsub.map _)
      seated_lt := fun f hf => h.seated_lt f (hsub.subset hf)
      length := by rw [Board.clearFade, List.length_set, h.length]
      faded := fun slot finish hf => ?_ }
    rw [Board.clearFade, List.getElem?_set] at hf
    split at hf
    · split at hf <;> cases hf
    · case isFalse hne =>
      obtain ⟨f, hmem, hslot⟩ := h.faded slot finish hf
      obtain ⟨j, hj, hfj⟩ := List.getElem_of_mem hmem
      refine ⟨f, ?_, hslot⟩
      refine List.mem_eraseIdx_iff_getElem.mpr ⟨j, hj, fun hij => hne ?_, hfj⟩
      subst hij
      rw [List.getElem?_eq_getElem hj] at he
      cases he
      rw [hfj, hslot]
  case h_2 =>
    have hsub : (b.staged.eraseIdx (i - b.seated.length)).Sublist b.staged :=
      List.eraseIdx_sublist _ _
    exact { h with
      staged := fun f hf => h.staged f (hsub.subset hf)
      staged_lt := fun f hf => h.staged_lt f (hsub.subset hf)
      waiting := le_trans hsub.countP_le h.waiting }

/-- Letting the replacement that waits go leaves none that does. -/
theorem release_waiting {b : Board ι τ} (h : Sound b) {k : ℕ} {e : Seat ι}
    (he : b.staged[k]? = some e) (hwaits : e.role ≠ .leaving) :
    ∀ f ∈ (b.release (b.seated.length + k)).staged, f.role = .leaving := by
  obtain ⟨hk, rfl⟩ := List.getElem?_eq_some_iff.mp he
  have hcount := countP_modify isWaiting .leaving hk
  have hnone : b.seated[b.seated.length + k]? = none := List.getElem?_eq_none (by omega)
  have hold : isWaiting b.staged[k] = true := by simpa [isWaiting] using hwaits
  have hzero : (b.staged.modify k (Seat.put .leaving)).countP isWaiting = 0 := by
    rw [hcount, if_pos hold, if_neg (by simp [isWaiting])]
    have := h.waiting
    omega
  intro f hf
  rw [Board.release, hnone, Board.modify, if_pos (by omega), Nat.add_sub_cancel_left] at hf
  simpa [isWaiting] using List.countP_eq_zero.mp hzero f hf

theorem sound_map {b : Board ι τ} (h : Sound b) {f g : Seat ι → Seat ι}
    (hf : ∀ e, (f e).slot = e.slot ∧ (f e).role ≠ .current)
    (hg : ∀ e ∈ b.staged, (g e).slot = e.slot ∧ (g e).role ≠ .current)
    (hwaits : (b.staged.map g).countP isWaiting ≤ 1) :
    Sound { b with seated := b.seated.map f, staged := b.staged.map g } where
  single := by
    rw [not_current_of_count fun e he => ?_]
    · exact Nat.zero_le 1
    · obtain ⟨e', _, rfl⟩ := List.mem_map.mp he
      exact (hf e').2
  staged := fun e he => by
    obtain ⟨e', he', rfl⟩ := List.mem_map.mp he
    exact (hg e' he').2
  named := fun item _ e he hcur => by
    obtain ⟨e', _, rfl⟩ := List.mem_map.mp he
    exact absurd hcur (hf e').2
  apart := by
    rw [List.map_map, show (fun e : Seat ι => e.slot) ∘ f = fun e => e.slot from
      funext fun e => (hf e).1]
    exact h.apart
  seated_lt := fun e he => by
    obtain ⟨e', he', rfl⟩ := List.mem_map.mp he
    exact (hf e').1 ▸ h.seated_lt e' he'
  staged_lt := fun e he => by
    obtain ⟨e', he', rfl⟩ := List.mem_map.mp he
    exact (hg e' he').1 ▸ h.staged_lt e' he'
  waiting := hwaits
  length := h.length
  faded := fun slot finish hfade => by
    obtain ⟨e, he, hslot⟩ := h.faded slot finish hfade
    exact ⟨f e, List.mem_map_of_mem he, (hf e).1.trans hslot⟩

theorem sound_vacate {b : Board ι τ} (h : Sound b) : Sound b.vacate := by
  refine sound_map h (fun e => ⟨rfl, by simp⟩) (fun e _ => ⟨rfl, by simp⟩) ?_
  rw [idle_of_count fun e he => ?_]
  · exact Nat.zero_le 1
  · obtain ⟨e', _, rfl⟩ := List.mem_map.mp he
    rfl

theorem demoted_slot (e : Seat ι) : (if isCurrent e then e.put .outgoing else e).slot = e.slot := by
  split <;> rfl

theorem demoted_item (e : Seat ι) : (if isCurrent e then e.put .outgoing else e).item = e.item := by
  split <;> rfl

theorem demoted_same {e : Seat ι} (h : e.role ≠ .current) :
    (if isCurrent e then e.put .outgoing else e) = e :=
  if_neg (by simpa [isCurrent] using h)

theorem demoted_role (e : Seat ι) :
    (if isCurrent e then e.put .outgoing else e).role ≠ .current := by
  split
  case isTrue => simp
  case isFalse h => simpa [isCurrent] using h

theorem sound_demote {b : Board ι τ} (h : Sound b) : Sound b.demote := by
  have hmap := sound_map h (g := id) (fun e => ⟨demoted_slot e, demoted_role e⟩)
    (fun e he => ⟨rfl, h.staged e he⟩) (by rw [List.map_id]; exact h.waiting)
  rwa [List.map_id] at hmap

theorem demoted_idle (b : Board ι τ) : ∀ e ∈ b.demote.seated, e.role ≠ .current := fun e he => by
  obtain ⟨e', _, rfl⟩ := List.mem_map.mp he
  exact demoted_role e'

theorem demote_idle {b : Board ι τ} (h : ∀ e ∈ b.seated, e.role ≠ .current) : b.demote = b := by
  have hsame : b.seated.map (fun e => if isCurrent e then e.put .outgoing else e) = b.seated := by
    rw [List.map_congr_left fun e he => demoted_same (h e he), List.map_id']
  rw [Board.demote, hsame]

theorem demote_modify {b : Board ι τ} (h : Sound b) {i : ℕ} {e : Seat ι}
    (he : b.seated[i]? = some e) (hcur : e.role = .current) :
    b.modify i .outgoing = b.demote := by
  obtain ⟨hi, rfl⟩ := List.getElem?_eq_some_iff.mp he
  have hmap : b.seated.modify i (Seat.put .outgoing) =
      b.seated.map fun e => if isCurrent e then e.put .outgoing else e := by
    refine List.ext_getElem (by simp) fun j hj _ => ?_
    rw [List.length_modify] at hj
    rw [List.getElem_modify, List.getElem_map]
    split
    case isTrue hij =>
      subst hij
      rw [if_pos (by simp [isCurrent, hcur])]
    case isFalse hij =>
      rw [if_neg fun hj' => hij ?_]
      have hsame := current_unique h (List.getElem_mem hi) (List.getElem_mem hj) hcur
        (by simpa [isCurrent] using hj')
      exact (List.Nodup.of_map _ h.apart).getElem_inj_iff.mp hsame
  rw [Board.modify, if_neg (by omega), hmap, Board.demote]

theorem takeSeat_mem {seats : List (Seat ι)} {e f : Seat ι} (h : f ∈ Board.takeSeat seats e) :
    f = e ∨ f ∈ seats := by
  unfold Board.takeSeat at h
  split at h
  · exact (List.mem_or_eq_of_mem_set h).symm
  · rcases List.mem_append.mp h with h | h
    · exact .inr h
    · exact .inl (List.mem_singleton.mp h)

theorem takeSeat_keeps {seats : List (Seat ι)} {e f : Seat ι} (h : f ∈ seats)
    (hne : f.slot ≠ e.slot) : f ∈ Board.takeSeat seats e := by
  unfold Board.takeSeat
  split
  case h_1 i hi =>
    obtain ⟨hlt, hslot, _⟩ := List.findIdx?_eq_some_iff_getElem.mp hi
    obtain ⟨j, hj, rfl⟩ := List.getElem_of_mem h
    refine List.mem_iff_getElem.mpr ⟨j, by rwa [List.length_set], ?_⟩
    rw [List.getElem_set_ne]
    rintro rfl
    exact hne (by simpa using hslot)
  case h_2 => exact List.mem_append_left _ h

theorem takeSeat_apart {seats : List (Seat ι)} {e : Seat ι} (h : (seats.map (·.slot)).Nodup) :
    ((Board.takeSeat seats e).map (·.slot)).Nodup := by
  unfold Board.takeSeat
  split
  case h_1 i hi =>
    obtain ⟨hlt, hslot, _⟩ := List.findIdx?_eq_some_iff_getElem.mp hi
    have hsame : (seats.set i e).map (·.slot) = seats.map (·.slot) := by
      refine List.ext_getElem (by simp) fun j hj _ => ?_
      rw [List.getElem_map, List.getElem_map, List.getElem_set]
      split
      case isTrue hij =>
        subst hij
        exact (by simpa using hslot : seats[i].slot = e.slot).symm
      case isFalse => rfl
    rw [hsame]
    exact h
  case h_2 hnone =>
    rw [List.map_append]
    refine List.nodup_append.mpr ⟨h, List.nodup_singleton _, fun k hk k' hk' => ?_⟩
    rw [List.map_singleton, List.mem_singleton] at hk'
    obtain ⟨f, hf, rfl⟩ := List.mem_map.mp hk
    have := List.findIdx?_eq_none_iff.mp hnone f hf
    subst hk'
    simpa using this

theorem takeSeat_single {seats : List (Seat ι)} {e : Seat ι} (h : ∀ f ∈ seats, f.role ≠ .current) :
    (Board.takeSeat seats e).countP isCurrent ≤ 1 := by
  have hzero := not_current_of_count h
  unfold Board.takeSeat
  split
  case h_1 i hi =>
    have hlt := (List.findIdx?_eq_some_iff_getElem.mp hi).1
    rw [List.countP_set hlt, hzero, Nat.zero_sub, Nat.zero_add]
    split <;> decide
  case h_2 =>
    rw [List.countP_append, hzero, Nat.zero_add]
    exact List.countP_le_length

theorem sound_enter {b : Board ι τ} (h : Sound b) (hidle : ∀ e ∈ b.seated, e.role ≠ .current)
    (i : ℕ) : Sound (b.enter i) := by
  have hzero := not_current_of_count hidle
  unfold Board.enter
  split
  case h_1 e he =>
    have hi : i < b.seated.length := (List.getElem?_eq_some_iff.mp he).1
    refine { h with
      single := ?_
      named := fun item hitem f hf hcur => ?_
      apart := (map_slot_modify b.seated i .current).symm ▸ h.apart
      seated_lt := fun f hf => ?_
      faded := fun slot finish hf => slot_in_modify i .current (h.faded slot finish hf) }
    · rw [countP_modify _ _ hi, hzero, Nat.zero_sub, Nat.zero_add]
      split <;> decide
    · rcases mem_modify hf with hf | ⟨f', _, hf', rfl⟩
      · exact absurd hcur (hidle f hf)
      · rw [he] at hf'
        cases hf'
        exact Option.some.inj hitem
    · obtain ⟨f', hf', hslot⟩ := slot_of_modify hf
      exact hslot ▸ h.seated_lt f' hf'
  case h_2 =>
    split
    case h_2 => exact h
    case h_1 e he =>
      have hmem : e ∈ b.staged := List.mem_of_getElem? he
      have hsub : (b.staged.eraseIdx (i - b.seated.length)).Sublist b.staged :=
        List.eraseIdx_sublist _ _
      exact {
        single := takeSeat_single hidle
        staged := fun f hf => h.staged f (hsub.subset hf)
        named := fun item hitem f hf hcur => by
          rcases takeSeat_mem hf with rfl | hf
          · exact Option.some.inj hitem
          · exact absurd hcur (hidle f hf)
        apart := takeSeat_apart h.apart
        seated_lt := fun f hf => by
          rcases takeSeat_mem hf with rfl | hf
          · exact h.staged_lt e hmem
          · exact h.seated_lt f hf
        staged_lt := fun f hf => h.staged_lt f (hsub.subset hf)
        waiting := le_trans hsub.countP_le h.waiting
        length := by rw [Board.clearFade, List.length_set, h.length]
        faded := fun slot finish hf => by
          rw [Board.clearFade, List.getElem?_set] at hf
          split at hf
          · split at hf <;> cases hf
          · case isFalse hne =>
            obtain ⟨f, hmem', hslot⟩ := h.faded slot finish hf
            exact ⟨f, takeSeat_keeps hmem' fun heq => hne (heq.symm.trans hslot), hslot⟩ }

theorem sound_seat {b : Board ι τ} (h : Sound b) {e : Seat ι} (he : isAhead e.role)
    (hlt : e.slot < b.capacity) (hfree : ∀ f ∈ b.entries, f.slot ≠ e.slot) :
    Sound { b with seated := b.seated ++ [e] } := by
  have hcur : e.role ≠ .current := by rcases he with he | he <;> rw [he] <;> decide
  have hmem : ∀ f ∈ b.seated ++ [e], f ∈ b.seated ∨ f = e := fun f hf =>
    (List.mem_append.mp hf).imp id List.mem_singleton.mp
  exact { h with
    single := by
      rw [List.countP_append, List.countP_singleton, if_neg (by simpa [isCurrent] using hcur)]
      exact h.single
    named := fun item hitem f hf hf' => by
      rcases hmem f hf with hf | rfl
      · exact h.named item hitem f hf hf'
      · exact absurd hf' hcur
    apart := by
      rw [List.map_append]
      refine List.nodup_append.mpr ⟨h.apart, List.nodup_singleton _, fun k hk k' hk' => ?_⟩
      rw [List.map_singleton, List.mem_singleton] at hk'
      obtain ⟨f, hf, rfl⟩ := List.mem_map.mp hk
      subst hk'
      exact hfree f (List.mem_append_left _ hf)
    seated_lt := fun f hf => by
      rcases hmem f hf with hf | rfl
      · exact h.seated_lt f hf
      · exact hlt
    faded := fun slot finish hf => by
      obtain ⟨f, hf, hslot⟩ := h.faded slot finish hf
      exact ⟨f, List.mem_append_left _ hf, hslot⟩ }

theorem sound_stage {b : Board ι τ} (h : Sound b) {e : Seat ι} (he : isAhead e.role)
    (hidle : ∀ f ∈ b.staged, f.role = .leaving) (hslot : ∃ f ∈ b.seated, f.slot = e.slot) :
    Sound { b with staged := b.staged ++ [e] } := by
  have hcur : e.role ≠ .current := by rcases he with he | he <;> rw [he] <;> decide
  have hmem : ∀ f ∈ b.staged ++ [e], f ∈ b.staged ∨ f = e := fun f hf =>
    (List.mem_append.mp hf).imp id List.mem_singleton.mp
  exact { h with
    staged := fun f hf => by
      rcases hmem f hf with hf | rfl
      · exact h.staged f hf
      · exact hcur
    staged_lt := fun f hf => by
      rcases hmem f hf with hf | rfl
      · exact h.staged_lt f hf
      · obtain ⟨f', hf', heq⟩ := hslot
        exact heq ▸ h.seated_lt f' hf'
    waiting := by
      rw [List.countP_append, idle_of_count hidle, Nat.zero_add]
      exact List.countP_le_length }

theorem sound_fade {b : Board ι τ} (h : Sound b) {slot : ℕ} (finish : τ)
    (hslot : ∃ e ∈ b.seated, e.slot = slot) :
    Sound { b with fades := b.fades.set slot (some finish) } :=
  { h with
    length := by rw [List.length_set, h.length]
    faded := fun k finish' hf => by
      rw [List.getElem?_set] at hf
      split at hf
      · case isTrue heq => exact heq ▸ hslot
      · exact h.faded k finish' hf }

theorem assigned_waits {b : Board ι τ} {i : ℕ} {e : Seat ι} (he : b.entries[i]? = some e)
    (hleft : e.role ≠ .leaving) {role : Role} (hrole : isAhead role)
    (h : Sound b) : Sound (b.modify i role) := by
  have hne : role ≠ .current := by rcases hrole with rfl | rfl <;> decide
  by_cases hi : b.seated.length ≤ i
  · -- Only the entry at the index changes, and it was waiting before.
    have hone : (b.staged.modify (i - b.seated.length) (Seat.put role)).countP isWaiting ≤
        b.staged.countP isWaiting := countP_modify_le _ fun f hf _ => by
      rw [Board.entries, List.getElem?_append_right hi] at he
      rw [he] at hf
      cases hf
      simpa [isWaiting] using hleft
    unfold Board.modify
    rw [if_pos hi]
    refine { h with staged := fun f hf => ?_, staged_lt := fun f hf => ?_,
                    waiting := le_trans hone h.waiting }
    · rcases mem_modify hf with hf | ⟨f', _, _, rfl⟩
      · exact h.staged f hf
      · exact hne
    · obtain ⟨f', hf', hslot⟩ := slot_of_modify hf
      exact hslot ▸ h.staged_lt f' hf'
  · have hseated : b.modify i role = { b with seated := b.seated.modify i (Seat.put role) } := by
      rw [Board.modify, if_neg hi]
    have hsound : Sound ({ b with staged := [] } : Board ι τ) := { h with
      staged := fun _ hf => absurd hf List.not_mem_nil
      staged_lt := fun _ hf => absurd hf List.not_mem_nil
      waiting := Nat.zero_le 1 }
    have hmod := sound_modify (i := i) hsound hne fun f hf => absurd hf List.not_mem_nil
    rw [Board.modify, if_neg (show ¬ ({ b with staged := [] } : Board ι τ).seated.length ≤ i from hi)]
      at hmod
    rw [hseated]
    exact { hmod with staged := h.staged, staged_lt := h.staged_lt, waiting := h.waiting }

theorem sound_step (b : Board ι τ) (move : Move ι τ) (h : Sound b) (he : Enabled b move) :
    Sound (step b move) := by
  cases move with
  | seat e => exact sound_seat h he.1 he.2.1 he.2.2
  | stage e => exact sound_stage h he.1 he.2.1 he.2.2
  | assign i role =>
    obtain ⟨hrole, e, hi, _, hleft⟩ := he
    exact assigned_waits hi hleft hrole h
  | release i => exact sound_release h i
  | vacate => exact sound_vacate h
  | remove i => exact sound_remove h i
  | demote => exact sound_demote h
  | fade slot finish =>
    obtain ⟨e, he, hslot, _⟩ := he
    exact sound_fade h finish ⟨e, he, hslot⟩
  | enter i cause =>
    have hb := sound_enter h he.1 i
    cases cause with
    | pause => exact hb
    | handover batch => exact { hb with }
  | adopt item =>
    obtain ⟨_, e, he, hcur, rfl⟩ := he
    refine { h with named := fun item hitem f hf hf' => ?_ }
    rw [← Option.some.inj hitem, current_unique h hf he hf' hcur]
  | forget => exact { h with named := fun item hitem => by cases hitem }
  | send h' => exact { h with }
  | answer batch => exact { h with }

@[simp] theorem modify_pending (b : Board ι τ) (i : ℕ) (role : Role) :
    (b.modify i role).pending = b.pending := by
  unfold Board.modify
  split <;> rfl

@[simp] theorem release_pending (b : Board ι τ) (i : ℕ) : (b.release i).pending = b.pending := by
  unfold Board.release
  split
  · exact modify_pending b i _
  · exact modify_pending b i _

@[simp] theorem remove_pending (b : Board ι τ) (i : ℕ) : (b.remove i).pending = b.pending := by
  unfold Board.remove
  split <;> rfl

@[simp] theorem enter_pending (b : Board ι τ) (i : ℕ) : (b.enter i).pending = b.pending := by
  unfold Board.enter
  split
  · rfl
  · split <;> rfl

/-- The moves that have to do with the pending batch. -/
def settles : Move ι τ → Bool
  | .enter _ (.handover _) | .send _ | .answer _ => true
  | _ => false

theorem step_pending (b : Board ι τ) {move : Move ι τ} (h : settles move = false) :
    (step b move).pending = b.pending := by
  cases move with
  | enter i cause =>
    cases cause with
    | pause => exact enter_pending b i
    | handover batch => cases h
  | assign i role => exact modify_pending b i role
  | release i => exact release_pending b i
  | remove i => exact remove_pending b i
  | send | answer => cases h
  | seat | stage | vacate | demote | fade | adopt | forget => rfl

/-- The batch whose handover the move settles, with an entry that takes over or without. -/
def settled : Move ι τ → Option ℕ
  | .enter _ (.handover batch) | .answer batch => some batch
  | _ => none

/-- While a batch is pending nothing else is sent, so only its own settling ends the wait. -/
theorem pending_step {b : Board ι τ} {h : Handover ι} (hpending : b.pending = some h)
    {move : Move ι τ} (he : Enabled b move) (hother : settled move ≠ some h.batch) :
    (step b move).pending = some h := by
  cases hsettles : settles move with
  | false => rw [step_pending b hsettles, hpending]
  | true =>
    cases move with
    | enter i cause =>
      cases cause with
      | pause => cases hsettles
      | handover batch =>
        obtain ⟨_, e, _, h', hpending', rfl, _⟩ := he
        rw [hpending] at hpending'
        cases hpending'
        exact absurd rfl hother
    | answer batch =>
      obtain ⟨h', hpending', rfl⟩ := he
      rw [hpending] at hpending'
      cases hpending'
      exact absurd rfl hother
    | send h' =>
      rw [he.1] at hpending
      cases hpending
    | seat | stage | assign | release | vacate | remove | demote | fade | adopt | forget =>
      cases hsettles

theorem pending_kept {h : Handover ι} (moves : List (Move ι τ)) (b : Board ι τ)
    (hpending : b.pending = some h) (hv : machine.ValidTrace b moves)
    (hother : ∀ move ∈ moves, settled move ≠ some h.batch) :
    (machine.runTrace b moves).pending = some h := by
  induction moves generalizing b with
  | nil => exact hpending
  | cons move moves ih =>
    have hstep := pending_step hpending hv.1 (hother move List.mem_cons_self)
    exact ih (step b move) hstep hv.2 fun move hmove => hother move (List.mem_cons_of_mem _ hmove)

def Board.expecting (b : Board ι τ) (pending : Option (Handover ι)) : Board ι τ :=
  { b with pending := pending }

/-- The board once the current entry has made way for another: it is an outgoing one, and its slot
may have a fade. -/
def Cleared (b b' : Board ι τ) : Prop :=
  b' = b.demote ∨ ∃ slot finish, Enabled b.demote (.fade slot finish) ∧
    b' = step b.demote (.fade slot finish)

theorem cleared_moves {b b' : Board ι τ} (h : Cleared b b') :
    ∃ moves : List (Move ι τ), (∀ move ∈ moves, settles move = false) ∧
      machine.ValidTrace b moves ∧ b' = machine.runTrace b moves := by
  rcases h with rfl | ⟨slot, finish, he, rfl⟩
  · refine ⟨[.demote], fun move hmove => ?_, ⟨trivial, trivial⟩, rfl⟩
    rw [List.mem_singleton.mp hmove]
    rfl
  · refine ⟨[.demote, .fade slot finish], fun move hmove => ?_, ⟨trivial, he, trivial⟩, rfl⟩
    rcases List.mem_cons.mp hmove with rfl | hmove
    · rfl
    · rw [List.mem_singleton.mp hmove]
      rfl

theorem cleared_expecting {b b' : Board ι τ} (h : Cleared b b') (pending : Option (Handover ι)) :
    Cleared (b.expecting pending) (b'.expecting pending) := by
  rcases h with rfl | ⟨slot, finish, he, rfl⟩
  · exact .inl rfl
  · exact .inr ⟨slot, finish, he, rfl⟩

theorem enter_expecting (b : Board ι τ) (pending : Option (Handover ι)) (i : ℕ) :
    (b.expecting pending).enter i = (b.enter i).expecting pending := by
  unfold Board.enter Board.expecting
  dsimp only
  split
  · rfl
  · split <;> rfl

theorem cleared_same {b b' : Board ι τ} (h : Cleared b b') :
    b'.seated = b.demote.seated ∧ b'.staged = b.staged ∧ b'.pending = b.pending := by
  rcases h with rfl | ⟨slot, finish, _, rfl⟩
  · exact ⟨rfl, rfl, rfl⟩
  · exact ⟨rfl, rfl, rfl⟩

/-- An entry keeps its place, its item and its slot while the current one makes way, and its part
unless it is the current one. -/
theorem cleared_entry {b b' : Board ι τ} (h : Cleared b b') {i : ℕ} {e : Seat ι}
    (he : b.entries[i]? = some e) : ∃ e', b'.entries[i]? = some e' ∧ e'.item = e.item ∧
      e'.slot = e.slot ∧ (e.role ≠ .current → e'.role = e.role) := by
  have hentries : b'.entries = b.demote.entries := by
    rw [Board.entries, (cleared_same h).1, (cleared_same h).2.1]
    rfl
  rw [hentries, Board.entries, Board.demote]
  by_cases hle : b.seated.length ≤ i
  · refine ⟨e, ?_, rfl, rfl, fun _ => rfl⟩
    rw [Board.entries, List.getElem?_append_right hle] at he
    rwa [List.getElem?_append_right (by rwa [List.length_map]), List.length_map]
  · rw [Board.entries, List.getElem?_append_left (by omega)] at he
    rw [List.getElem?_append_left (by rw [List.length_map]; omega), List.getElem?_map, he]
    exact ⟨_, rfl, demoted_item e, demoted_slot e, fun hcur => congrArg Seat.role (demoted_same hcur)⟩

/-- An entry that may enter still may once the current one has made way. -/
theorem cleared_lets {b b' : Board ι τ} (h : Cleared b b') {i : ℕ} {e : Seat ι} {cause : Cause}
    (he : b.entries[i]? = some e) (hlets : Lets b i e cause) : Enabled b' (.enter i cause) := by
  obtain ⟨hseated, _, hpending⟩ := cleared_same h
  obtain ⟨e', he', hitem, hslot, hrole⟩ := cleared_entry h he
  refine ⟨fun f hf => demoted_idle b f (hseated ▸ hf), e', he', ?_⟩
  cases cause with
  | pause =>
    have hincoming : e.role = .incoming := hlets
    exact (hrole (by rw [hincoming]; decide)).trans hincoming
  | handover batch =>
    obtain ⟨p, hp, hbatch, hpitem, hpslot, hstaged⟩ := hlets
    refine ⟨p, hpending.trans hp, hbatch, hpitem.trans hitem.symm, hpslot.trans hslot.symm, ?_⟩
    rw [hseated, Board.demote, List.length_map]
    exact hstaged

end MixerBoard

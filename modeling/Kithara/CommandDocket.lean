import Kithara.Extraction
import Kithara.CommandProtocol

/-! What one command level holds: the ledger of the last shift of each target, the schedule and
the three lists beside it. Lists of the schedule start with the batch that runs next, which is
the end of the source's vector. -/
namespace CommandDocket

open Extraction CommandProtocol

variable {P : Protocol}

/-- Last applied batch that shifted each target's time. -/
structure Ledger where
  last : List (Option ℕ)

namespace Ledger

def new (targets : ℕ) : Ledger := ⟨List.replicate targets none⟩

def isCurrent (ledger : Ledger) (basis : List (P.Target × Option ℕ)) : Bool :=
  basis.all fun entry => ledger.last[P.index entry.1]? = some entry.2

def record (ledger : Ledger) (basis : List (P.Target × Option ℕ)) (seq : ℕ) : Ledger :=
  ⟨ledger.last.mapIdx fun index last =>
    if basis.any fun entry => P.index entry.1 = index then some seq else last⟩

def reset (ledger : Ledger) : Ledger := ⟨ledger.last.map fun _ => none⟩

/-- A basis entry names an earlier batch than the one that shifted its target last. -/
def outdates (ledger : Ledger) (basis : List (P.Target × Option ℕ)) : Bool :=
  basis.any fun entry =>
    match (ledger.last[P.index entry.1]?).join with
    | none => false
    | some current => match entry.2 with
      | none => true
      | some expected => expected < current

end Ledger

variable (P) in
structure Docket where
  schedule : List (Sent P)
  ledger : Ledger
  parked : List (Sent P)
  committed : List (P.Clock × Sent P)
  arrived : List (Sent P)

def insertByKey (sent : Sent P) (items : List (Sent P)) : List (Sent P) :=
  items.takeWhile (fun item => item.key ≤ sent.key) ++
    sent :: items.dropWhile (fun item => item.key ≤ sent.key)

/-- Next batches run before timed ones, so the earliest timed batch follows them. -/
def takeTimed (items : List (Sent P)) : Option (Sent P × List (Sent P)) :=
  extract (fun sent => match sent.when with
    | .timed _ => true
    | _ => false) items

namespace Docket

def new (targets : ℕ) : Docket P :=
  { schedule := [], ledger := .new targets, parked := [], committed := [], arrived := [] }

def insert (d : Docket P) (sent : Sent P) : Docket P :=
  match sent.when with
  | .deferred => { d with arrived := d.arrived ++ [sent] }
  | _ => { d with schedule := insertByKey sent d.schedule }

def park (d : Docket P) (sent : Sent P) : Docket P := { d with parked := d.parked ++ [sent] }

def framesUntilDue (d : Docket P) (start : P.Clock) : Option ℕ :=
  match d.schedule.head? with
  | none => none
  | some sent => match sent.when with
    | .next => some 0
    | .timed moment => some ((P.framesSince moment start).getD 0)
    | .deferred => none

def isParked (d : Docket P) (seq : ℕ) : Bool := d.parked.any fun sent => sent.seq = seq

/-- The first outdated batch, looking through the schedule, the arrivals and the parked list. -/
def takeOutdated (d : Docket P) : Option (Sent P × Docket P) :=
  let outdated (sent : Sent P) := d.ledger.outdates sent.batch.basis
  match extract outdated d.schedule with
  | some (sent, rest) => some (sent, { d with schedule := rest })
  | none => match extract outdated d.arrived with
    | some (sent, rest) => some (sent, { d with arrived := rest })
    | none => match extract outdated d.parked with
      | some (sent, rest) => some (sent, { d with parked := rest })
      | none => none

/-- The order the level empties itself in; lists other than the schedule give up their last. -/
def takeLeftover (d : Docket P) : Option (Sent P × Docket P) :=
  match d.committed.getLast? with
  | some (_, sent) => some (sent, { d with committed := d.committed.dropLast })
  | none => match d.arrived.getLast? with
    | some sent => some (sent, { d with arrived := d.arrived.dropLast })
    | none => match d.parked.getLast? with
      | some sent => some (sent, { d with parked := d.parked.dropLast })
      | none => match d.schedule with
        | sent :: rest => some (sent, { d with schedule := rest })
        | [] => none

def size (d : Docket P) : ℕ :=
  d.schedule.length + d.arrived.length + d.parked.length + d.committed.length

variable {τ : Type*} (label : Batch P → τ)

/-- The batches a level holds, each by its number and label. -/
def content (d : Docket P) : Multiset (ℕ × τ) :=
  (d.schedule.map (Sent.tag label) : Multiset (ℕ × τ)) + d.arrived.map (Sent.tag label) +
    d.parked.map (Sent.tag label) + d.committed.map fun entry => entry.2.tag label

theorem card_content (d : Docket P) : Multiset.card (d.content label) = d.size := by
  simp only [content, size, Multiset.card_add, Multiset.coe_card, List.length_map]

variable {label}

theorem coe_map_perm {α β : Type*} {l l' : List α} (f : α → β) (h : l.Perm l') :
    (l.map f : Multiset β) = l'.map f := Multiset.coe_eq_coe.mpr (h.map f)

theorem insertByKey_perm (sent : Sent P) (items : List (Sent P)) :
    (insertByKey sent items).Perm (sent :: items) := by
  simp only [insertByKey]
  refine List.perm_middle.trans ?_
  rw [List.takeWhile_append_dropWhile]

theorem insertByKey_order {sent : Sent P} {items : List (Sent P)}
    (h : items.Pairwise fun a b => a.key < b.key) (hne : ∀ item ∈ items, item.key ≠ sent.key) :
    (insertByKey sent items).Pairwise fun a b => a.key < b.key := by
  apply insert_order h
  · intro item hitem hle
    exact lt_of_le_of_ne (of_decide_eq_true hle) (hne item hitem)
  · intro item _ hle
    exact not_le.mp (of_decide_eq_false hle)

omit label in
theorem insert_ledger (d : Docket P) (sent : Sent P) : (d.insert sent).ledger = d.ledger := by
  simp only [insert]
  split <;> rfl

theorem content_insert (d : Docket P) (sent : Sent P) :
    (d.insert sent).content label = sent.tag label ::ₘ d.content label := by
  have hschedule : (({ d with schedule := insertByKey sent d.schedule } : Docket P).content label) =
      sent.tag label ::ₘ d.content label := by
    simp only [content, coe_map_perm _ (insertByKey_perm sent d.schedule), List.map_cons,
      ← Multiset.cons_coe, Multiset.cons_add]
  simp only [insert]
  cases hw : sent.when with
  | next => exact hschedule
  | timed moment => exact hschedule
  | deferred =>
    simp only [content, coe_map_perm _ (List.perm_append_singleton sent d.arrived), List.map_cons,
      ← Multiset.cons_coe, Multiset.cons_add, Multiset.add_cons]

theorem content_park (d : Docket P) (sent : Sent P) :
    (d.park sent).content label = sent.tag label ::ₘ d.content label := by
  simp only [park, content, coe_map_perm _ (List.perm_append_singleton sent d.parked),
    List.map_cons, ← Multiset.cons_coe, Multiset.cons_add, Multiset.add_cons]

theorem content_takeOutdated {d d' : Docket P} {sent : Sent P}
    (h : d.takeOutdated = some (sent, d')) :
    d.content label = sent.tag label ::ₘ d'.content label := by
  unfold takeOutdated at h
  dsimp only at h
  split at h
  · rename_i he
    cases h
    simp only [content, coe_map_perm _ (extract_spec he).1, List.map_cons, ← Multiset.cons_coe,
      Multiset.cons_add]
  · split at h
    · rename_i he
      cases h
      simp only [content, coe_map_perm _ (extract_spec he).1, List.map_cons, ← Multiset.cons_coe,
        Multiset.cons_add, Multiset.add_cons]
    · split at h
      · rename_i he
        cases h
        simp only [content, coe_map_perm _ (extract_spec he).1, List.map_cons, ← Multiset.cons_coe,
          Multiset.cons_add, Multiset.add_cons]
      · cases h

/-- Outdated batches go, and go alone: the ledger and the committed batches stay. -/
theorem takeOutdated_spec {d d' : Docket P} {sent : Sent P}
    (h : d.takeOutdated = some (sent, d')) :
    d.ledger.outdates sent.batch.basis = true ∧ d'.ledger = d.ledger ∧
      d'.committed = d.committed := by
  unfold takeOutdated at h
  dsimp only at h
  split at h
  · rename_i he
    cases h
    exact ⟨(extract_spec he).2, rfl, rfl⟩
  · split at h
    · rename_i he
      cases h
      exact ⟨(extract_spec he).2, rfl, rfl⟩
    · split at h
      · rename_i he
        cases h
        exact ⟨(extract_spec he).2, rfl, rfl⟩
      · cases h

theorem takeOutdated_lists {d d' : Docket P} {sent : Sent P}
    (h : d.takeOutdated = some (sent, d')) :
    (d.schedule ++ d.arrived ++ d.parked).Perm
        (sent :: (d'.schedule ++ d'.arrived ++ d'.parked)) ∧
      d'.schedule.Sublist d.schedule ∧ d'.arrived.Sublist d.arrived ∧
      d'.parked.Sublist d.parked := by
  unfold takeOutdated at h
  dsimp only at h
  split at h
  · rename_i he
    cases h
    have hperm := ((extract_spec he).1.append_right d.arrived).append_right d.parked
    exact ⟨hperm, extract_sublist he, List.Sublist.refl _, List.Sublist.refl _⟩
  · split at h
    · rename_i he
      cases h
      have hperm := (((extract_spec he).1.append_left d.schedule).trans
        List.perm_middle).append_right d.parked
      exact ⟨hperm, List.Sublist.refl _, extract_sublist he, List.Sublist.refl _⟩
    · split at h
      · rename_i he
        cases h
        have hperm := ((extract_spec he).1.append_left (d.schedule ++ d.arrived)).trans
          List.perm_middle
        exact ⟨hperm, List.Sublist.refl _, List.Sublist.refl _, extract_sublist he⟩
      · cases h

theorem takeOutdated_eq_none {d : Docket P} (h : d.takeOutdated = none) :
    ∀ sent ∈ d.schedule ++ d.arrived ++ d.parked,
      d.ledger.outdates sent.batch.basis = false := by
  unfold takeOutdated at h
  dsimp only at h
  split at h
  · cases h
  · rename_i hschedule
    split at h
    · cases h
    · rename_i harrived
      split at h
      · cases h
      · rename_i hparked
        intro sent hsent
        rcases List.mem_append.mp hsent with hsent | hsent
        · rcases List.mem_append.mp hsent with hsent | hsent
          · exact extract_eq_none hschedule sent hsent
          · exact extract_eq_none harrived sent hsent
        · exact extract_eq_none hparked sent hsent

theorem takeLeftover_ledger {d d' : Docket P} {sent : Sent P}
    (h : d.takeLeftover = some (sent, d')) : d'.ledger = d.ledger := by
  simp only [takeLeftover] at h
  split at h
  · cases h
    rfl
  · split at h
    · cases h
      rfl
    · split at h
      · cases h
        rfl
      · split at h
        · cases h
          rfl
        · cases h

theorem getLast_perm {α : Type*} {l : List α} {x : α} (h : l.getLast? = some x) :
    l.Perm (x :: l.dropLast) := by
  obtain ⟨front, rfl⟩ := List.getLast?_eq_some_iff.mp h
  rw [List.dropLast_concat]
  exact List.perm_append_singleton x front

theorem content_takeLeftover {d d' : Docket P} {sent : Sent P}
    (h : d.takeLeftover = some (sent, d')) :
    d.content label = sent.tag label ::ₘ d'.content label := by
  simp only [takeLeftover] at h
  split at h
  · rename_i he
    cases h
    simp only [content, coe_map_perm _ (getLast_perm he), List.map_cons, ← Multiset.cons_coe,
      Multiset.add_cons]
  · split at h
    · rename_i he
      cases h
      simp only [content, coe_map_perm _ (getLast_perm he), List.map_cons, ← Multiset.cons_coe,
        Multiset.cons_add, Multiset.add_cons]
    · split at h
      · rename_i he
        cases h
        simp only [content, coe_map_perm _ (getLast_perm he), List.map_cons, ← Multiset.cons_coe,
          Multiset.cons_add, Multiset.add_cons]
      · split at h
        · rename_i he
          cases h
          simp only [content, he, List.map_cons, ← Multiset.cons_coe, Multiset.cons_add]
        · cases h

theorem size_of_content {d d' : Docket P} {sent : Sent P}
    (h : d.content Batch.commands = sent.tag Batch.commands ::ₘ d'.content Batch.commands) :
    d.size = d'.size + 1 := by
  rw [← card_content Batch.commands d, h, Multiset.card_cons, card_content]

theorem takeLeftover_eq_none {d : Docket P} (h : d.takeLeftover = none) : d.size = 0 := by
  simp only [takeLeftover] at h
  split at h
  · cases h
  · rename_i hcommitted
    split at h
    · cases h
    · rename_i harrived
      split at h
      · cases h
      · rename_i hparked
        split at h
        · cases h
        · rename_i hschedule
          simp [size, hschedule, List.getLast?_eq_none_iff.mp hcommitted,
            List.getLast?_eq_none_iff.mp harrived, List.getLast?_eq_none_iff.mp hparked]

end Docket

end CommandDocket

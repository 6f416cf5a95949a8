import Kithara.CommandDocket
import Mathlib.Tactic.Abel
import Mathlib.Algebra.Order.Group.Multiset

/-! The executor's calls on one command level. A call leaves the docket, the batch it hands to
the executor, and its replies in the order they enter the receipt ring. No call loses a batch. -/
namespace CommandLevel

open Extraction CommandProtocol CommandDocket

variable {P : Protocol}

variable (P) in
structure Due where
  moment : P.Clock
  seq : ℕ
  basis : List (P.Target × Option ℕ)
  commands : List P.Command
  offset : ℕ

variable (P) in
/-- A deferred arrival, not judged until it is parked or resumed. -/
structure Deferred where
  seq : ℕ
  basis : List (P.Target × Option ℕ)
  commands : List P.Command

def Due.batch (due : Due P) : Batch P := { basis := due.basis, commands := due.commands }

def Deferred.batch (deferred : Deferred P) : Batch P :=
  { basis := deferred.basis, commands := deferred.commands }

variable (P) in
/-- The batch the executor holds outside the docket; the borrow admits one at a time. -/
inductive Hand where
  | empty
  | due (due : Due P)
  | deferred (deferred : Deferred P)

variable (P) in
structure Turn where
  docket : Docket P
  hand : Hand P
  replies : List (Receipt P)

def toDue (sent : Sent P) (moment : P.Clock) (offset : ℕ) : Due P :=
  { moment := moment
    seq := sent.seq
    basis := sent.batch.basis
    commands := sent.batch.commands
    offset := offset }

/-- Where a scheduled batch falls: its moment, and its frames past the start unless it is late. -/
def momentOf (start : P.Clock) : When P.Clock → Option (P.Clock × Option ℕ)
  | .next => some (start, some 0)
  | .timed moment => some (moment, P.framesSince moment start)
  | .deferred => none

/-- Walks the schedule: late and stale batches are answered until one is due or none is left
inside the block. -/
def walk (ledger : Ledger) (start : P.Clock) (frames : ℕ) :
    List (Sent P) → List (Receipt P) × Hand P × List (Sent P)
  | [] => ([], .empty, [])
  | sent :: rest =>
    match momentOf start sent.when with
    | none => ([], .empty, sent :: rest)
    | some (moment, some offset) =>
      if offset < frames then
        if ledger.isCurrent sent.batch.basis then ([], .due (toDue sent moment offset), rest)
        else (sent.reject .stale :: (walk ledger start frames rest).1,
          (walk ledger start frames rest).2)
      else ([], .empty, sent :: rest)
    | some (_, none) =>
      (sent.reject .late :: (walk ledger start frames rest).1, (walk ledger start frames rest).2)

def takeDue (d : Docket P) (start : P.Clock) (frames : ℕ) : Turn P :=
  if frames = 0 then { docket := d, hand := .empty, replies := [] }
  else
    let walked := walk d.ledger start frames d.schedule
    { docket := { d with schedule := walked.2.2 }, hand := walked.2.1, replies := walked.1 }

def takeDeferred (d : Docket P) : Turn P :=
  match d.arrived with
  | [] => { docket := d, hand := .empty, replies := [] }
  | sent :: rest =>
    { docket := { d with arrived := rest }
      hand := .deferred { seq := sent.seq, basis := sent.batch.basis, commands := sent.batch.commands }
      replies := [] }

/-- A moment before the block's start is left parked; only a debug assertion excludes it. -/
def takeParked (d : Docket P) (seq : ℕ) (start moment : P.Clock) : Turn P :=
  match swapExtract (fun sent => sent.seq = seq) d.parked, P.framesSince moment start with
  | some (sent, rest), some offset =>
    if d.ledger.isCurrent sent.batch.basis then
      { docket := { d with parked := rest }, hand := .due (toDue sent moment offset), replies := [] }
    else { docket := { d with parked := rest }, hand := .empty, replies := [sent.reject .stale] }
  | _, _ => { docket := d, hand := .empty, replies := [] }

/-- A committed batch is answered at its original moment, in whatever hand the level is. -/
def complete (d : Docket P) (hand : Hand P) (seq : ℕ) (data : P.Applied) : Turn P :=
  match swapExtract (fun entry => entry.2.seq = seq) d.committed with
  | some ((moment, sent), rest) =>
    { docket := { d with committed := rest }
      hand := hand
      replies := [{ batch := sent.batch, outcome := .applied moment data, seq := sent.seq }] }
  | none => { docket := d, hand := hand, replies := [] }

def rejectOutdated (d : Docket P) : Docket P × List (Receipt P) :=
  let taken := exhaust Docket.takeOutdated d.size d
  (taken.2, taken.1.map fun sent => sent.reject .stale)

def refuseTimed (d : Docket P) (refusal : P.Refusal) : Turn P :=
  let taken := exhaust takeTimed d.schedule.length d.schedule
  { docket := { d with schedule := taken.2 }
    hand := .empty
    replies := taken.1.map fun sent => sent.reject (.refused refusal) }

def unanswered (d : Docket P) : Turn P :=
  let taken := exhaust Docket.takeLeftover d.size d
  { docket := taken.2, hand := .empty, replies := taken.1.map Sent.unanswered }

namespace Due

def apply (due : Due P) (d : Docket P) (data : P.Applied) : Turn P :=
  let rejected := rejectOutdated { d with ledger := d.ledger.record due.basis due.seq }
  { docket := rejected.1
    hand := .empty
    replies := { batch := due.batch, outcome := .applied due.moment data, seq := due.seq } ::
      rejected.2 }

def commit (due : Due P) (d : Docket P) : Turn P :=
  let sent : Sent P := { batch := due.batch, seq := due.seq, when := .timed due.moment }
  let rejected := rejectOutdated { d with
    ledger := d.ledger.record due.basis due.seq
    committed := d.committed ++ [(due.moment, sent)] }
  { docket := rejected.1, hand := .empty, replies := rejected.2 }

/-- A refusal is the answer with that refusal, a drop the answer that there was none. -/
def answer (due : Due P) (d : Docket P) (rejection : Rejection P) : Turn P :=
  { docket := d
    hand := .empty
    replies := [{ batch := due.batch, outcome := .rejected rejection, seq := due.seq }] }

def defer (due : Due P) (d : Docket P) : Turn P :=
  { docket := d.park { batch := due.batch, seq := due.seq, when := .deferred }
    hand := .empty
    replies := [] }

end Due

namespace Deferred

def answer (deferred : Deferred P) (d : Docket P) (rejection : Rejection P) : Turn P :=
  { docket := d
    hand := .empty
    replies := [{ batch := deferred.batch, outcome := .rejected rejection, seq := deferred.seq }] }

def park (deferred : Deferred P) (d : Docket P) : Turn P :=
  if d.ledger.outdates deferred.basis then deferred.answer d .stale
  else
    { docket := d.park { batch := deferred.batch, seq := deferred.seq, when := .deferred }
      hand := .empty
      replies := [] }

end Deferred

def editCommitted (d : Docket P) (seq : ℕ) (edit : List P.Command → List P.Command) : Docket P :=
  { d with committed := editFirst d.committed }
where
  editFirst : List (P.Clock × Sent P) → List (P.Clock × Sent P)
    | [] => []
    | entry :: rest =>
      if entry.2.seq = seq then
        (entry.1, { entry.2 with batch := { entry.2.batch with
          commands := edit entry.2.batch.commands } }) :: rest
      else entry :: editFirst rest

section Ledger

/-- Batches rejected early are outdated; the ledger and the committed batches stay. -/
theorem rejectOutdated_spec (d : Docket P) :
    (∀ receipt ∈ (rejectOutdated d).2, d.ledger.outdates receipt.batch.basis = true ∧
      receipt.outcome = .rejected .stale) ∧
    (rejectOutdated d).1.ledger = d.ledger ∧ (rejectOutdated d).1.committed = d.committed := by
  have h := exhaust_forall Docket.takeOutdated
    (p := fun d' : Docket P => d'.ledger = d.ledger ∧ d'.committed = d.committed)
    (q := fun sent => d.ledger.outdates sent.batch.basis = true)
    (fun s sent s' hs ht => by
      obtain ⟨hout, hledger, hcommitted⟩ := Docket.takeOutdated_spec ht
      rw [hs.1] at hout
      exact ⟨hout, hledger.trans hs.1, hcommitted.trans hs.2⟩) d.size ⟨rfl, rfl⟩
  refine ⟨?_, h.2⟩
  intro receipt hreceipt
  obtain ⟨sent, hsent, rfl⟩ := List.mem_map.mp hreceipt
  exact ⟨h.1 sent hsent, rfl⟩

theorem rejectOutdated_lists (d : Docket P) : ∃ taken : List (Sent P),
    (rejectOutdated d).2 = taken.map (fun sent => sent.reject .stale) ∧
      (d.schedule ++ d.arrived ++ d.parked).Perm (taken ++ ((rejectOutdated d).1.schedule ++
        (rejectOutdated d).1.arrived ++ (rejectOutdated d).1.parked)) ∧
      (rejectOutdated d).1.schedule.Sublist d.schedule ∧
      (rejectOutdated d).1.arrived.Sublist d.arrived ∧
      (rejectOutdated d).1.parked.Sublist d.parked := by
  have hcontent := exhaust_content Docket.takeOutdated
    (fun d' : Docket P => (d'.schedule ++ d'.arrived ++ d'.parked : Multiset (Sent P))) id
    (fun _ _ _ ht => Multiset.coe_eq_coe.mpr (Docket.takeOutdated_lists ht).1) d.size d
  have hlists := (exhaust_forall Docket.takeOutdated
    (p := fun d' : Docket P => d'.schedule.Sublist d.schedule ∧ d'.arrived.Sublist d.arrived ∧
      d'.parked.Sublist d.parked) (q := fun _ => True)
    (fun _ _ _ hs ht => by
      obtain ⟨_, hschedule, harrived, hparked⟩ := Docket.takeOutdated_lists ht
      exact ⟨trivial, hschedule.trans hs.1, harrived.trans hs.2.1, hparked.trans hs.2.2⟩)
    d.size ⟨List.Sublist.refl _, List.Sublist.refl _, List.Sublist.refl _⟩).2
  refine ⟨_, rfl, ?_, hlists⟩
  rw [List.map_id] at hcontent
  exact Multiset.coe_eq_coe.mp hcontent

theorem rejectOutdated_none (d : Docket P) :
    ∀ sent ∈ (rejectOutdated d).1.schedule ++ (rejectOutdated d).1.arrived ++
      (rejectOutdated d).1.parked, d.ledger.outdates sent.batch.basis = false := by
  have hnone : (rejectOutdated d).1.takeOutdated = none :=
    exhaust_none Docket.takeOutdated Docket.size (fun _ _ _ ht => by
      have := Docket.size_of_content (Docket.content_takeOutdated ht)
      omega) le_rfl
  intro sent hsent
  have h := Docket.takeOutdated_eq_none hnone sent hsent
  rwa [(rejectOutdated_spec d).2.1] at h

theorem takeDue_ledger (d : Docket P) (start : P.Clock) (frames : ℕ) :
    (takeDue d start frames).docket.ledger = d.ledger := by
  simp only [takeDue]
  split <;> rfl

theorem takeDeferred_ledger (d : Docket P) : (takeDeferred d).docket.ledger = d.ledger := by
  simp only [takeDeferred]
  split <;> rfl

theorem takeParked_ledger (d : Docket P) (seq : ℕ) (start moment : P.Clock) :
    (takeParked d seq start moment).docket.ledger = d.ledger := by
  simp only [takeParked]
  split
  · split <;> rfl
  · rfl

theorem complete_ledger (d : Docket P) (hand : Hand P) (seq : ℕ) (data : P.Applied) :
    (complete d hand seq data).docket.ledger = d.ledger := by
  simp only [complete]
  split <;> rfl

theorem unanswered_ledger (d : Docket P) : (unanswered d).docket.ledger = d.ledger :=
  (exhaust_forall Docket.takeLeftover (p := fun d' : Docket P => d'.ledger = d.ledger)
    (q := fun _ => True)
    (fun _ _ _ hs ht => ⟨trivial, (Docket.takeLeftover_ledger ht).trans hs⟩) d.size rfl).2

theorem Deferred.park_ledger (deferred : Deferred P) (d : Docket P) :
    (deferred.park d).docket.ledger = d.ledger := by
  simp only [Deferred.park]
  split <;> rfl

theorem walk_current {ledger : Ledger} {start : P.Clock} {frames : ℕ} {items : List (Sent P)}
    {held : Due P} (h : (walk ledger start frames items).2.1 = .due held) :
    ledger.isCurrent held.basis = true := by
  induction items with
  | nil => cases h
  | cons sent rest ih =>
    simp only [walk] at h
    split at h
    · cases h
    · split at h
      · split at h
        · rename_i hcurrent
          cases h
          exact hcurrent
        · exact ih h
      · cases h
    · exact ih h

/-- A walk that finds nothing late answers a first stretch of the schedule Stale and hands over
the batch after it, if that one is due. -/
theorem walk_stretch {ledger : Ledger} {start : P.Clock} {frames : ℕ} {items : List (Sent P)}
    (hlate : ∀ receipt ∈ (walk ledger start frames items).1,
      receipt.outcome = .rejected .stale) :
    ∃ missed : List (Sent P),
      (walk ledger start frames items).1 = missed.map (fun sent => sent.reject .stale) ∧
      (∀ sent ∈ missed, ledger.isCurrent sent.batch.basis = false) ∧
      (((walk ledger start frames items).2.1 = .empty ∧
          items = missed ++ (walk ledger start frames items).2.2) ∨
        ∃ sent moment offset, (walk ledger start frames items).2.1 =
            .due (toDue sent moment offset) ∧
          momentOf start sent.when = some (moment, some offset) ∧
          items = missed ++ sent :: (walk ledger start frames items).2.2) := by
  induction items with
  | nil => exact ⟨[], rfl, by simp, Or.inl ⟨rfl, rfl⟩⟩
  | cons sent rest ih =>
    have stop : ∃ missed : List (Sent P),
        ([] : List (Receipt P)) = missed.map (fun sent => sent.reject .stale) ∧
        (∀ sent ∈ missed, ledger.isCurrent sent.batch.basis = false) ∧
        ((Hand.empty (P := P)) = .empty ∧ sent :: rest = missed ++ sent :: rest) :=
      ⟨[], rfl, by simp, rfl, rfl⟩
    simp only [walk] at hlate ⊢
    cases hm : momentOf start sent.when with
    | none =>
      obtain ⟨missed, hmissed, hmiss, hstop⟩ := stop
      exact ⟨missed, hmissed, hmiss, Or.inl hstop⟩
    | some r =>
      obtain ⟨moment, offset⟩ := r
      rw [hm] at hlate
      cases offset with
      | none =>
        have hfirst := hlate _ List.mem_cons_self
        cases hfirst
      | some offset =>
        dsimp only at hlate ⊢
        by_cases hlt : offset < frames
        · rw [if_pos hlt] at hlate ⊢
          by_cases hc : ledger.isCurrent sent.batch.basis = true
          · rw [if_pos hc]
            exact ⟨[], rfl, by simp, Or.inr ⟨sent, moment, offset, rfl, hm, rfl⟩⟩
          · rw [if_neg hc] at hlate ⊢
            obtain ⟨missed, hreplies, hmiss, hend⟩ :=
              ih fun receipt hr => hlate receipt (List.mem_cons_of_mem _ hr)
            refine ⟨sent :: missed, ?_, ?_, ?_⟩
            · rw [List.map_cons, ← hreplies]
            · exact List.forall_mem_cons.mpr ⟨Bool.eq_false_iff.mpr hc, hmiss⟩
            · rcases hend with ⟨hhand, hitems⟩ | ⟨due, moment', offset', hhand, hwhen, hitems⟩
              · exact Or.inl ⟨hhand, congrArg (sent :: ·) hitems⟩
              · exact Or.inr ⟨due, moment', offset', hhand, hwhen, congrArg (sent :: ·) hitems⟩
        · rw [if_neg hlt]
          obtain ⟨missed, hmissed, hmiss, hstop⟩ := stop
          exact ⟨missed, hmissed, hmiss, Or.inl hstop⟩

theorem takeDue_current {d : Docket P} {start : P.Clock} {frames : ℕ} {held : Due P}
    (h : (takeDue d start frames).hand = .due held) : d.ledger.isCurrent held.basis = true := by
  simp only [takeDue] at h
  split at h
  · cases h
  · exact walk_current h

theorem takeParked_current {d : Docket P} {seq : ℕ} {start moment : P.Clock} {held : Due P}
    (h : (takeParked d seq start moment).hand = .due held) :
    d.ledger.isCurrent held.basis = true := by
  simp only [takeParked] at h
  split at h
  · split at h
    · rename_i hcurrent
      cases h
      exact hcurrent
    · cases h
  · cases h

end Ledger

section Conservation

variable {τ : Type*} (label : Batch P → τ)

def Hand.content : Hand P → Multiset (ℕ × τ)
  | .empty => 0
  | .due held => {(held.seq, label held.batch)}
  | .deferred held => {(held.seq, label held.batch)}

/-- Everything a call leaves behind: in the docket, in the hand, or on its way as a reply. -/
def Turn.content (t : Turn P) : Multiset (ℕ × τ) :=
  t.docket.content label + t.hand.content label + t.replies.map (Receipt.tag label)

variable {label}

theorem walk_content (ledger : Ledger) (start : P.Clock) (frames : ℕ) (items : List (Sent P)) :
    ((walk ledger start frames items).1.map (Receipt.tag label) : Multiset (ℕ × τ)) +
        (walk ledger start frames items).2.1.content label +
        (walk ledger start frames items).2.2.map (Sent.tag label) =
      items.map (Sent.tag label) := by
  induction items with
  | nil => rfl
  | cons sent rest ih =>
    have stop : ((([] : List (Receipt P)).map (Receipt.tag label) : Multiset (ℕ × τ)) +
        (Hand.empty : Hand P).content label + (sent :: rest).map (Sent.tag label)) =
        (sent :: rest).map (Sent.tag label) := by simp [Hand.content]
    have skip (rejection : Rejection P) :
        (((sent.reject rejection :: (walk ledger start frames rest).1).map (Receipt.tag label) :
          Multiset (ℕ × τ)) + (walk ledger start frames rest).2.1.content label +
          (walk ledger start frames rest).2.2.map (Sent.tag label)) =
        (sent :: rest).map (Sent.tag label) := by
      rw [List.map_cons, List.map_cons, tag_reject, ← Multiset.cons_coe, ← Multiset.cons_coe,
        Multiset.cons_add, Multiset.cons_add, ih]
    simp only [walk]
    cases hm : momentOf start sent.when with
    | none => exact stop
    | some r =>
      obtain ⟨moment, offset⟩ := r
      cases offset with
      | none => exact skip .late
      | some offset =>
        dsimp only
        by_cases hlt : offset < frames
        · rw [if_pos hlt]
          by_cases hc : ledger.isCurrent sent.batch.basis = true
          · rw [if_pos hc]
            simp only [Hand.content, List.map_nil, List.map_cons, Multiset.coe_nil, zero_add,
              ← Multiset.cons_coe, Multiset.singleton_add]
            rfl
          · rw [if_neg hc]
            exact skip .stale
        · rw [if_neg hlt]
          exact stop

theorem takeDue_content (d : Docket P) (start : P.Clock) (frames : ℕ) :
    (takeDue d start frames).content label = d.content label := by
  simp only [takeDue]
  by_cases hf : frames = 0
  · rw [if_pos hf]
    simp [Turn.content, Hand.content]
  · rw [if_neg hf]
    simp only [Turn.content, Docket.content]
    rw [← walk_content d.ledger start frames d.schedule]
    abel

theorem takeDeferred_content (d : Docket P) : (takeDeferred d).content label = d.content label := by
  simp only [takeDeferred]
  cases ha : d.arrived with
  | nil => simp [Turn.content, Hand.content]
  | cons sent rest =>
    have hsent : (sent :: rest).map (Sent.tag label) =
        ({(sent.seq, label sent.batch)} : Multiset (ℕ × τ)) + rest.map (Sent.tag label) := rfl
    simp only [Turn.content, Hand.content, Docket.content, ha, hsent, List.map_nil,
      Multiset.coe_nil, Deferred.batch]
    abel

/-- Extracting one batch from a list of the docket hands it over or answers it. -/
theorem parked_content {d : Docket P} {rest : List (Sent P)} {sent : Sent P}
    (h : d.parked.Perm (sent :: rest)) :
    d.content label = ({ d with parked := rest } : Docket P).content label +
      {(sent.seq, label sent.batch)} := by
  simp only [Docket.content, Docket.coe_map_perm _ h, List.map_cons, ← Multiset.cons_coe,
    ← Multiset.singleton_add, Sent.tag]
  abel

theorem committed_content {d : Docket P} {rest : List (P.Clock × Sent P)}
    {entry : P.Clock × Sent P} (h : d.committed.Perm (entry :: rest)) :
    d.content label = ({ d with committed := rest } : Docket P).content label +
      {(entry.2.seq, label entry.2.batch)} := by
  simp only [Docket.content, Docket.coe_map_perm _ h, List.map_cons, ← Multiset.cons_coe,
    ← Multiset.singleton_add, Sent.tag]
  abel

theorem takeParked_content (d : Docket P) (seq : ℕ) (start moment : P.Clock) :
    (takeParked d seq start moment).content label = d.content label := by
  have none : (({ docket := d, hand := .empty, replies := [] } : Turn P).content label) =
      d.content label := by simp [Turn.content, Hand.content]
  simp only [takeParked]
  cases hs : swapExtract (fun sent => decide (sent.seq = seq)) d.parked with
  | none => exact none
  | some r =>
    obtain ⟨sent, rest⟩ := r
    cases hf : P.framesSince moment start with
    | none => exact none
    | some offset =>
      dsimp only
      rw [parked_content (swapExtract_spec hs).1]
      split
      · simp [Turn.content, Hand.content, toDue, Due.batch]
      · simp [Turn.content, Hand.content, Receipt.tag, Sent.reject]

theorem complete_content (d : Docket P) (hand : Hand P) (seq : ℕ) (data : P.Applied) :
    (complete d hand seq data).content label = d.content label + hand.content label := by
  simp only [complete]
  cases hs : swapExtract (fun entry => decide (entry.2.seq = seq)) d.committed with
  | none => simp [Turn.content]
  | some r =>
    obtain ⟨⟨moment, sent⟩, rest⟩ := r
    rw [committed_content (swapExtract_spec hs).1]
    simp only [Turn.content, List.map_cons, List.map_nil, Receipt.tag, Multiset.coe_singleton]
    abel

theorem rejectOutdated_content (d : Docket P) :
    (rejectOutdated d).1.content label + (rejectOutdated d).2.map (Receipt.tag label) =
      d.content label := by
  have h := exhaust_content Docket.takeOutdated (Docket.content label) (Sent.tag label)
    (fun _ _ _ ht => Docket.content_takeOutdated ht) d.size d
  rw [h, rejectOutdated, List.map_map]
  exact add_comm _ _

theorem refuseTimed_content (d : Docket P) (refusal : P.Refusal) :
    (refuseTimed d refusal).content label = d.content label := by
  have h := exhaust_content takeTimed
    (fun items : List (Sent P) => (items.map (Sent.tag label) : Multiset (ℕ × τ)))
    (Sent.tag label) (fun items sent rest ht => by
      rw [Docket.coe_map_perm _ (extract_spec ht).1]
      rfl) d.schedule.length d.schedule
  simp only [refuseTimed, Turn.content, Hand.content, Docket.content, List.map_map, h]
  show _ + 0 + ((exhaust takeTimed d.schedule.length d.schedule).1.map (Sent.tag label) :
    Multiset (ℕ × τ)) = _
  abel

theorem unanswered_content (d : Docket P) : (unanswered d).content label = d.content label := by
  have h := exhaust_content Docket.takeLeftover (Docket.content label) (Sent.tag label)
    (fun _ _ _ ht => Docket.content_takeLeftover ht) d.size d
  rw [h]
  simp only [unanswered, Turn.content, Hand.content, List.map_map, add_zero]
  exact add_comm _ _

theorem unanswered_empty (d : Docket P) : (unanswered d).docket.size = 0 :=
  Docket.takeLeftover_eq_none (exhaust_none Docket.takeLeftover Docket.size
    (fun _ _ _ ht => by
      have := Docket.size_of_content (Docket.content_takeLeftover ht)
      omega) le_rfl)

theorem Due.answer_content (due : Due P) (d : Docket P) (rejection : Rejection P) :
    (due.answer d rejection).content label = d.content label + {(due.seq, label due.batch)} := by
  simp [Due.answer, Turn.content, Hand.content, Receipt.tag]

theorem Due.apply_content (due : Due P) (d : Docket P) (data : P.Applied) :
    (due.apply d data).content label = d.content label + {(due.seq, label due.batch)} := by
  have h : (rejectOutdated { d with ledger := d.ledger.record due.basis due.seq }).1.content label +
      (rejectOutdated { d with ledger := d.ledger.record due.basis due.seq }).2.map
        (Receipt.tag label) = d.content label := rejectOutdated_content _
  rw [← h]
  simp only [Due.apply, Turn.content, Hand.content, List.map_cons, Receipt.tag,
    ← Multiset.cons_coe, ← Multiset.singleton_add]
  abel

theorem Due.commit_content (due : Due P) (d : Docket P) :
    (due.commit d).content label = d.content label + {(due.seq, label due.batch)} := by
  have hpush : ({ d with
      ledger := d.ledger.record due.basis due.seq
      committed := d.committed ++ [(due.moment,
        { batch := due.batch, seq := due.seq, when := .timed due.moment })] } : Docket P).content
        label = d.content label + {(due.seq, label due.batch)} :=
    committed_content (d := { d with committed := d.committed ++ [(due.moment,
        { batch := due.batch, seq := due.seq, when := .timed due.moment })] })
      (List.perm_append_singleton _ d.committed)
  rw [← hpush, ← rejectOutdated_content]
  simp only [Due.commit, Turn.content, Hand.content, add_zero]

theorem Due.defer_content (due : Due P) (d : Docket P) :
    (due.defer d).content label = d.content label + {(due.seq, label due.batch)} := by
  simp only [Due.defer, Turn.content, Hand.content, Docket.content_park, List.map_nil,
    Multiset.coe_nil, add_zero, Sent.tag, ← Multiset.singleton_add]
  exact add_comm _ _

theorem Deferred.answer_content (deferred : Deferred P) (d : Docket P) (rejection : Rejection P) :
    (deferred.answer d rejection).content label =
      d.content label + {(deferred.seq, label deferred.batch)} := by
  simp [Deferred.answer, Turn.content, Hand.content, Receipt.tag]

theorem Deferred.park_content (deferred : Deferred P) (d : Docket P) :
    (deferred.park d).content label =
      d.content label + {(deferred.seq, label deferred.batch)} := by
  simp only [Deferred.park]
  split
  · exact deferred.answer_content d .stale
  · simp only [Turn.content, Hand.content, Docket.content_park, List.map_nil,
      Multiset.coe_nil, add_zero, Sent.tag, ← Multiset.singleton_add]
    exact add_comm _ _

theorem editCommitted_content {d : Docket P} {seq : ℕ} {edit : List P.Command → List P.Command}
    (h : ∀ batch : Batch P, label { batch with commands := edit batch.commands } = label batch) :
    (editCommitted d seq edit).content label = d.content label := by
  have hlist (l : List (P.Clock × Sent P)) :
      (editCommitted.editFirst seq edit l).map (fun entry => entry.2.tag label) =
        l.map fun entry => entry.2.tag label := by
    induction l with
    | nil => rfl
    | cons entry rest ih =>
      simp only [editCommitted.editFirst]
      split
      · simp only [List.map_cons, Sent.tag, h]
      · simp only [List.map_cons, ih]
  simp only [editCommitted, Docket.content, hlist]

end Conservation

end CommandLevel

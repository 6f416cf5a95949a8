import Kithara.CommandSimulation
import Mathlib.Order.Lattice.Nat

/-! The sender's projection of the ledger. It replays what is unanswered over the shifts read from
receipts, and shows what the executor's ledger will be; but a committed batch is answered late,
and a receipt that overtakes it on one of its targets hides it on the others. -/
namespace CommandProjection

open CommandProtocol CommandDocket CommandLevel CommandChannel CommandAnswers CommandBasis
open CommandSimulation
open BasisReplay (Current Change)
open OrderedExecution (Entry Line Step Steps)
open OrderedProjection (Read Slice Uniform unread Passed InOrder)
open TransitionSystem

variable {P : Protocol} {capacity : ℕ}

def toRun (s : State P capacity) : List (Sent P) :=
  s.commands.items.foldl (fun items sent => insertByKey sent items)
    (handSent s.hand ++ s.docket.schedule)

def runOne (ledger : Ledger) (sent : Sent P) : Ledger :=
  if ledger.isCurrent sent.batch.basis then ledger.record sent.batch.basis sent.seq else ledger

/-- The executor's ledger once it has run every batch sent so far with a moment up to `w`. -/
def onceRun (s : State P capacity) (w : P.Clock) : Ledger :=
  ((toRun s).filter fun sent => sent.when ≤ .timed w).foldl runOne s.docket.ledger

/-- The projection shows the executor's ledger, for every moment not before the last executed. -/
def Agrees (s : State P capacity) : Prop :=
  ∀ target w, (∀ moment ∈ executed s, moment ≤ w) →
    s.sender.book.basis target (.timed w) = ((onceRun s w).last[P.index target]?).join

/-- The batches that shifted the ledger and whose receipt is still to be read. -/
def shiftedUnread (s : State P capacity) : List (ℕ × List (P.Target × Option ℕ)) :=
  s.docket.committed.map (fun entry => (entry.2.seq, entry.2.batch.basis)) ++
    (s.answers.items ++ s.replies).filterMap fun receipt =>
      (appliedAt receipt).map fun _ => (receipt.seq, receipt.batch.basis)

/-- The receipts read show a shift of the target past the batch. -/
def ShownPast (s : State P capacity) (seq index : ℕ) : Prop :=
  ∃ last, s.sender.book.applied[index]? = some (some last) ∧ seq < last

/-- As `ShownPast`, with the shifts of one receipt more. -/
def PastWith (s : State P capacity) (receipt : Receipt P) (seq index : ℕ) : Prop :=
  ShownPast s seq index ∨ ((appliedAt receipt).isSome = true ∧
    (∃ entry ∈ receipt.batch.basis, P.index entry.1 = index) ∧ seq < receipt.seq)

/-- A receipt is read only when no batch that shifted the ledger and is still to be read would
be shown past on one of its targets and not on another. -/
def ReadsEvenly (s : State P capacity) : Action P → Prop
  | .poll => ∀ receipt answers, s.answers.tryPop = some (receipt, answers) →
      ∀ batch ∈ shiftedUnread { s with answers := answers }, ∀ x ∈ batch.2, ∀ y ∈ batch.2,
        PastWith s receipt batch.1 (P.index x.1) → PastWith s receipt batch.1 (P.index y.1)
  | _ => True

def orderly : Machine (State P capacity) (Action P) where
  Enabled s a := Enabled Batch.basis s a ∧ Orderly s a
  next := next

def pendingEntry (pending : Pending P) : Entry ℕ Mark (Key P) where
  stamp := mark (some (some pending.seq))
  basis := pending.basis.map fun entry => (entry.1, mark (some entry.2))
  key := toLex (pending.when, pending.seq)

/-- The sender's book and the line: what is pending is what is unread, over the stamps read. -/
structure Accounts (targets : ℕ) (s : State P capacity) (l : Line ℕ Mark (Key P)) : Prop where
  size : s.sender.book.targets = targets
  length : s.sender.book.applied.length = targets
  order : InOrder (s.sender.book.pending.map pendingEntry)
  pending : ∀ e, e ∈ s.sender.book.pending.map pendingEntry ↔
    e ∈ l.sent ∧ unread l s.answered.length e.toChange = true
  read : Read (base targets) l s.answered.length (view ⟨s.sender.book.applied⟩)

/-- Everything the run keeps, with the line it stands for. -/
structure Tracks (targets : ℕ) (s : State P capacity) (l : Line ℕ Mark (Key P)) : Prop where
  invariant : CommandAnswers.Invariant Batch.basis s
  based : Based s
  line : OrderedExecution.Invariant (base targets) l
  follows : Follows targets s l
  accounts : Accounts targets s l

variable {targets : ℕ} {s : State P capacity} {l : Line ℕ Mark (Key P)}

theorem start_tracks (targets : ℕ) : Tracks targets (start targets : State P capacity) Line.empty := by
  refine ⟨start_invariant targets, start_based targets, OrderedExecution.empty_invariant _,
    start_follows targets, ⟨rfl, by simp [start, Book.new], .nil, ?_, ⟨?_, ?_, ?_⟩⟩⟩
  · simp [start, Book.new, Line.empty]
  · exact le_of_eq rfl
  · simp [Line.empty]
  · exact fun t => Or.inl rfl

theorem answers_length (h : Follows targets s l) : s.answered.length ≤ l.answers.length := by
  rw [← h.replies.answers.length_eq]
  simp only [queue, List.length_append]
  omega

theorem accounts_congr {s' : State P capacity} {l' : Line ℕ Mark (Key P)}
    (h : Accounts targets s l) (hf : Follows targets s l) (hbook : s'.sender.book = s.sender.book)
    (hanswered : s'.answered = s.answered) (hsent : l'.sent = l.sent)
    (hanswers : l.answers <+: l'.answers) : Accounts targets s' l' := by
  obtain ⟨more, hmore⟩ := hanswers
  have htake : l'.answers.take s.answered.length = l.answers.take s.answered.length := by
    rw [← hmore, List.take_append_of_le_length (answers_length hf)]
  refine ⟨hbook ▸ h.size, hbook ▸ h.length, hbook ▸ h.order, ?_, ?_⟩
  · rw [hbook, hanswered, hsent]
    intro e
    simp only [unread, htake]
    exact h.pending e
  · rw [hbook, hanswered]
    obtain ⟨habove, hshown, hsource⟩ := h.read
    refine ⟨habove, ?_, ?_⟩
    · rw [htake]
      exact hshown
    · rw [htake]
      exact hsource

theorem shifted_in_range (hl : OrderedExecution.Invariant (base targets) l)
    (h : Follows targets s l) {e : Entry ℕ Mark (Key P)} (he : e ∈ l.shifted) {t : ℕ}
    (ht : t ∈ e.names) : t < targets := by
  by_contra hout
  have hbot : base targets t = ⊥ := by
    simp [base, view, Ledger.new, hout, mark]
  refine BasisReplay.chained_notMem hl.chain ?_ e.toChange (List.mem_map_of_mem he) ht
  intro c hc b hb
  obtain ⟨d, hd, rfl⟩ := List.mem_map.mp hc
  have hsent := hl.shifted d hd
  rw [h.sends.sent] at hsent
  obtain ⟨sent, _, rfl⟩ := List.mem_map.mp hsent
  obtain ⟨entry, _, rfl⟩ := List.mem_map.mp hb
  rw [hbot]
  exact mark_some_ne_bot entry.2

def settleOne (seq : ℕ) (applied : List (Option ℕ)) (index : ℕ) : List (Option ℕ) :=
  applied.modify index fun last => some (max (last.getD 0) seq)

theorem settleOne_view (seq index t : ℕ) (applied : List (Option ℕ)) :
    view ⟨settleOne seq applied index⟩ t =
      if t = index ∧ t < applied.length then
        max (view ⟨applied⟩ t) (mark (some (some seq))) else view ⟨applied⟩ t := by
  simp only [view, settleOne, List.getElem?_modify]
  rcases hlast : applied[t]? with _ | last
  · have hout : ¬ t < applied.length := not_lt.mpr (List.getElem?_eq_none_iff.mp hlast)
    rw [if_neg fun h => hout h.2]
    rfl
  · have hin : t < applied.length := (List.getElem?_eq_some_iff.mp hlast).1
    by_cases ht : t = index
    · rw [if_pos ⟨ht, hin⟩]
      cases last <;> simp [ht, mark]
    · rw [if_neg fun h => ht h.1]
      simp [Ne.symm ht]

theorem settle_view (seq : ℕ) (indices : List ℕ) (applied : List (Option ℕ)) :
    (indices.foldl (settleOne seq) applied).length = applied.length ∧
      ∀ t, view ⟨indices.foldl (settleOne seq) applied⟩ t =
        if t ∈ indices ∧ t < applied.length then
          max (view ⟨applied⟩ t) (mark (some (some seq))) else view ⟨applied⟩ t := by
  induction indices generalizing applied with
  | nil => exact ⟨rfl, fun t => by simp⟩
  | cons index rest ih =>
    obtain ⟨hlength, hview⟩ := ih (settleOne seq applied index)
    have hone : (settleOne seq applied index).length = applied.length := by
      simp [settleOne]
    refine ⟨hlength.trans hone, fun t => ?_⟩
    rw [List.foldl_cons, hview, hone, settleOne_view]
    by_cases hlt : t < applied.length
    · by_cases ht : t = index
      · by_cases hr : t ∈ rest
        · simp only [ht ▸ hr, ht ▸ hlt, ht, and_self, if_true, List.mem_cons, true_or, max_assoc,
            max_self]
        · simp [ht ▸ hr, ht ▸ hlt, ht]
      · by_cases hr : t ∈ rest <;> simp [ht, hr, hlt]
    · simp [hlt]

theorem forall₂_split {α β : Type*} {R : α → β → Prop} {as as' : List α} {a : α} {bs : List β}
    (h : List.Forall₂ R (as ++ a :: as') bs) :
    ∃ b, R a b ∧ bs.take (as.length + 1) = bs.take as.length ++ [b] := by
  induction as generalizing bs with
  | nil =>
    cases h with
    | cons hr _ => exact ⟨_, hr, rfl⟩
  | cons x xs ih =>
    cases h with
    | cons _ hs =>
      obtain ⟨b, hb, htake⟩ := ih hs
      refine ⟨b, hb, ?_⟩
      rw [List.length_cons, List.take_succ_cons, htake]
      rfl

theorem next_answer (h : Follows targets s l) {receipt : Receipt P}
    {answers : BoundedRing.Ring (Receipt P) capacity}
    (hpop : s.answers.tryPop = some (receipt, answers)) : ∃ answer,
      Answers receipt answer ∧
        l.answers.take (s.answered.length + 1) = l.answers.take s.answered.length ++ [answer] := by
  have hqueue : queue s = s.answered ++ (receipt :: (answers.items ++ s.replies)) := by
    simp only [queue, BoundedRing.Ring.tryPop_eq_some hpop, List.append_assoc, List.cons_append]
  have hall := h.replies.answers
  rw [hqueue] at hall
  exact forall₂_split hall

theorem unread_succ {n : ℕ} {e : Entry ℕ Mark (Key P)} {took : Bool}
    (htake : l.answers.take (n + 1) = l.answers.take n ++ [(e, took)]) (c : Change ℕ Mark) :
    unread l (n + 1) c = true ↔ unread l n c = true ∧ c.stamp ≠ e.stamp := by
  simp only [unread, htake, List.map_append, List.map_singleton, List.mem_append,
    List.mem_singleton, not_or, decide_eq_true_eq, Bool.decide_and, Bool.and_eq_true]
  tauto

theorem settle_read {n : ℕ} {receipt : Receipt P} {e : Entry ℕ Mark (Key P)} {took : Bool}
    {applied : List (Option ℕ)} (hl : OrderedExecution.Invariant (base targets) l)
    (hf : Follows targets s l) (hlength : applied.length = targets)
    (hr : Read (base targets) l n (view ⟨applied⟩)) (ha : Answers receipt (e, took))
    (htake : l.answers.take (n + 1) = l.answers.take n ++ [(e, took)])
    (hanswer : (e, took) ∈ l.answers) :
    Read (base targets) l (n + 1) (view ⟨match receipt.outcome with
      | .applied _ _ => receipt.batch.basis.foldl (fun applied entry =>
          applied.modify (P.index entry.1) fun last => some (max (last.getD 0) receipt.seq)) applied
      | .rejected _ => applied⟩) := by
  obtain ⟨when, he, htook⟩ := ha
  obtain ⟨habove, hshown, hsource⟩ := hr
  cases ho : receipt.outcome with
  | rejected rejection =>
    have hfalse : took = false := by
      rw [ho] at htook
      cases rejection with
      | stale => exact htook
      | late => exact htook.elim
      | refused refusal => exact htook.elim
      | unanswered => exact htook.elim
    subst hfalse
    dsimp only
    refine ⟨habove, ?_, ?_⟩
    · intro d hd
      rw [htake] at hd
      rcases List.mem_append.mp hd with hd | hd
      · exact hshown d hd
      · simp at hd
    · intro t
      rw [htake]
      refine (hsource t).imp_right ?_
      rintro ⟨d, hd, ht⟩
      exact ⟨d, List.mem_append_left _ hd, ht⟩
  | applied moment data =>
    rw [ho] at htook
    obtain ⟨rfl, htrue⟩ := htook
    obtain rfl : took = true := htrue
    obtain rfl : e = entryOf (.timed moment) receipt.seq receipt.batch.basis := he
    have hindices : receipt.batch.basis.foldl (fun applied entry =>
        applied.modify (P.index entry.1) fun last => some (max (last.getD 0) receipt.seq)) applied =
        (receipt.batch.basis.map fun entry => P.index entry.1).foldl (settleOne receipt.seq)
          applied := by
      rw [List.foldl_map]
      rfl
    have hnames : (entryOf (When.timed moment) receipt.seq receipt.batch.basis).names =
        receipt.batch.basis.map fun entry => P.index entry.1 := by
      simp [entryOf, change, Change.names]
    obtain ⟨_, hview⟩ := settle_view receipt.seq
      (receipt.batch.basis.map fun entry => P.index entry.1) applied
    dsimp only
    rw [hindices]
    refine ⟨?_, ?_, ?_⟩
    · intro t
      rw [hview]
      split
      · exact (habove t).trans (le_max_left _ _)
      · exact habove t
    · intro d hd t ht
      rw [htake] at hd
      rw [hview]
      rcases List.mem_append.mp hd with hd | hd
      · split
        · exact (hshown d hd t ht).trans (le_max_left _ _)
        · exact hshown d hd t ht
      · obtain ⟨rfl, _⟩ := Prod.mk.inj (List.mem_singleton.mp hd)
        have hrange := shifted_in_range hl hf (hl.applied _ hanswer) ht
        rw [if_pos ⟨hnames ▸ ht, hlength ▸ hrange⟩]
        exact le_max_right _ _
    · intro t
      rw [hview, htake]
      split
      · rename_i hin
        rcases le_total (mark (some (some receipt.seq))) (view ⟨applied⟩ t) with hle | hle
        · rw [max_eq_left hle]
          refine (hsource t).imp_right ?_
          rintro ⟨d, hd, ht⟩
          exact ⟨d, List.mem_append_left _ hd, ht⟩
        · rw [max_eq_right hle]
          exact Or.inr ⟨_, List.mem_append_right _ List.mem_cons_self, hnames ▸ hin.1, rfl⟩
      · refine (hsource t).imp_right ?_
        rintro ⟨d, hd, ht⟩
        exact ⟨d, List.mem_append_left _ hd, ht⟩

theorem poll_accounts (hl : OrderedExecution.Invariant (base targets) l)
    (hf : Follows targets s l) (h : Accounts targets s l) {receipt : Receipt P}
    {answers : BoundedRing.Ring (Receipt P) capacity}
    (hpop : s.answers.tryPop = some (receipt, answers)) : Accounts targets (next s .poll) l := by
  obtain ⟨⟨e, took⟩, ha, htake⟩ := next_answer hf hpop
  have hnext : next s .poll = { s with answers := answers }.read receipt := by
    simp only [next, hpop]
  have hanswered : (next s .poll).answered.length = s.answered.length + 1 := by
    rw [hnext]
    simp only [State.read, List.length_append, List.length_singleton]
  have hbook : (next s .poll).sender.book = s.sender.book.settle receipt := by
    rw [hnext]
    rfl
  have hanswer : (e, took) ∈ l.answers := by
    apply List.mem_of_mem_take (i := s.answered.length + 1)
    rw [htake]
    exact List.mem_append_right _ List.mem_cons_self
  have hstamp : e.stamp = mark (some (some receipt.seq)) := by
    obtain ⟨when, he, _⟩ := ha
    rw [show e = entryOf when receipt.seq receipt.batch.basis from he]
    rfl
  have hfilter : ((s.sender.book.settle receipt).pending.map pendingEntry) =
      (s.sender.book.pending.map pendingEntry).filter fun d => d.stamp ≠ e.stamp := by
    simp only [Book.settle, List.filter_map]
    apply congrArg (List.map pendingEntry)
    apply List.filter_congr
    intro p _
    simp [pendingEntry, hstamp, mark]
  have hsettled : (s.sender.book.settle receipt).applied = match receipt.outcome with
      | .applied _ _ => receipt.batch.basis.foldl (fun applied entry =>
          applied.modify (P.index entry.1) fun last => some (max (last.getD 0) receipt.seq))
          s.sender.book.applied
      | .rejected _ => s.sender.book.applied := rfl
  refine ⟨hbook ▸ h.size, ?_, ?_, ?_, ?_⟩
  · rw [hbook, hsettled]
    cases receipt.outcome with
    | rejected rejection => exact h.length
    | applied moment data =>
      have hlen := (settle_view receipt.seq
        (receipt.batch.basis.map fun entry => P.index entry.1) s.sender.book.applied).1
      rw [List.foldl_map] at hlen
      exact hlen.trans h.length
  · rw [hbook, hfilter]
    exact h.order.filter _
  · intro d
    rw [hbook, hfilter, hanswered, List.mem_filter, h.pending, unread_succ htake,
      decide_eq_true_eq, and_assoc]
  · rw [hbook, hanswered, hsettled]
    exact settle_read hl hf h.length h.read ha htake hanswer

def pushed (when : When P.Clock) (seq : ℕ) (basis : List (P.Target × Option ℕ)) : Pending P where
  when := when
  seq := seq
  basis := basis.map fun entry => (P.index entry.1, entry.2)

theorem pushed_entry (when : When P.Clock) (seq : ℕ) (basis : List (P.Target × Option ℕ)) :
    pendingEntry (pushed when seq basis) = entryOf when seq basis := by
  simp [pendingEntry, pushed, entryOf, change, Function.comp_def]

theorem spend_applied (b : Book P) (when : When P.Clock) (seq : ℕ)
    (basis : List (P.Target × Option ℕ)) :
    (b.spend when seq basis).targets = b.targets ∧
      (b.spend when seq basis).applied = b.applied := by
  simp only [Book.spend]
  split <;> exact ⟨rfl, rfl⟩

theorem spend_pending {b : Book P} (when : When P.Clock) (seq : ℕ)
    (basis : List (P.Target × Option ℕ)) (h : InOrder (b.pending.map pendingEntry))
    (hnew : ∀ p ∈ b.pending, p.seq ≠ seq) :
    InOrder ((b.spend when seq basis).pending.map pendingEntry) ∧
      ∀ e, e ∈ (b.spend when seq basis).pending.map pendingEntry ↔
        e ∈ b.pending.map pendingEntry ∨ (basis ≠ [] ∧ e = entryOf when seq basis) := by
  by_cases hb : basis = []
  · have hspend : (b.spend when seq basis).pending = b.pending := by
      simp [Book.spend, hb]
    rw [hspend]
    exact ⟨h, fun e => by simp [hb]⟩
  · have hspend : (b.spend when seq basis).pending =
        b.pending.takeWhile (fun p => toLex (p.when, p.seq) < toLex (when, seq)) ++
          pushed when seq basis ::
            b.pending.dropWhile (fun p => toLex (p.when, p.seq) < toLex (when, seq)) := by
      have hne : ¬ basis.isEmpty = true := fun he => hb (List.isEmpty_iff.mp he)
      simp only [Book.spend, if_neg hne]
      rfl
    rw [hspend]
    constructor
    · apply (List.pairwise_map (f := pendingEntry)).mpr
      have hpairs := (List.pairwise_map (f := pendingEntry)
        (R := fun a b : Entry ℕ Mark (Key P) => a.key < b.key)).mp h
      apply Extraction.insert_order hpairs
      · intro p _ hlt
        exact of_decide_eq_true hlt
      · intro p hp hlt
        have hle : toLex (when, seq) ≤ toLex (p.when, p.seq) := not_lt.mp (of_decide_eq_false hlt)
        refine lt_of_le_of_ne hle fun heq => hnew p hp ?_
        exact (congrArg (fun k : Key P => (ofLex k).2) heq).symm
    · intro e
      rw [List.map_append, List.map_cons, pushed_entry, List.mem_append, List.mem_cons,
        ← List.takeWhile_append_dropWhile (p := fun p : Pending P =>
          decide (toLex (p.when, p.seq) < toLex (when, seq))) (l := b.pending),
        List.map_append, List.mem_append]
      simp only [List.takeWhile_append_dropWhile]
      tauto

theorem answered_sent (hl : OrderedExecution.Invariant (base targets) l)
    {a : Entry ℕ Mark (Key P) × Bool} (ha : a ∈ l.answers) : a.1 ∈ l.sent := by
  obtain ⟨e, took⟩ := a
  cases took with
  | true => exact hl.shifted e (hl.applied e ha)
  | false => exact (hl.missed e ha).1

/-- A push adds its batch to the line and, if it has a basis, to the pending ones. -/
theorem push_accounts {l' : Line ℕ Mark (Key P)} (hl : OrderedExecution.Invariant (base targets) l)
    (hf : Follows targets s l) (h : Accounts targets s l) (hf' : Follows targets (next s .push) l')
    (hsteps : Steps (base targets) l l') : Accounts targets (next s .push) l' := by
  have hanswers := OrderedProjection.steps_answers hsteps
  have quiet (hbook : (next s .push).sender.book = s.sender.book)
      (haccepted : (next s .push).accepted = s.accepted)
      (hanswered : (next s .push).answered = s.answered) :
      Accounts targets (next s .push) l' := by
    refine accounts_congr h hf hbook hanswered ?_ hanswers
    rw [hf'.sends.sent, haccepted, hf.sends.sent]
  cases hphase : s.phase with
  | idle => exact quiet (by simp [next, hphase]) (by simp [next, hphase]) (by simp [next, hphase])
  | emptied => exact quiet (by simp [next, hphase]) (by simp [next, hphase]) (by simp [next, hphase])
  | orphaning =>
    exact quiet (by simp [next, hphase]) (by simp [next, hphase]) (by simp [next, hphase])
  | admitted when batch =>
    cases hpush : s.sender.push s.commands when batch with
    | error e =>
      exact quiet (by simp [next, hphase, hpush]) (by simp [next, hphase, hpush])
        (by simp [next, hphase, hpush])
    | ok r =>
      obtain ⟨sent, sender, commands⟩ := r
      obtain ⟨rfl, rfl, _, _⟩ := push_cases hpush
      have hbook : (next s .push).sender.book =
          s.sender.book.spend when s.sender.next batch.basis := by
        simp [next, hphase, hpush]
      have hanswered : (next s .push).answered = s.answered := by simp [next, hphase, hpush]
      have hsent : l'.sent = l.sent ++ [entryOf when s.sender.next batch.basis] := by
        have haccepted : (next s .push).accepted = s.accepted ++
            [{ batch := batch, seq := s.sender.next, when := when }] := by
          simp [next, hphase, hpush]
        rw [hf'.sends.sent, haccepted, List.map_append, hf.sends.sent]
        rfl
      obtain ⟨more, hmore⟩ := hanswers
      have htake : l'.answers.take s.answered.length = l.answers.take s.answered.length := by
        rw [← hmore, List.take_append_of_le_length (answers_length hf)]
      have hfresh : ∀ d ∈ l.sent, d.stamp < mark (some (some s.sender.next)) := by
        intro d hd
        rw [hf.sends.sent] at hd
        obtain ⟨x, hx, rfl⟩ := List.mem_map.mp hd
        exact mark_stamp_lt.mpr (hf.sends.fresh x hx)
      obtain ⟨hsize, happlied⟩ := spend_applied s.sender.book when s.sender.next batch.basis
      obtain ⟨horder, hmem⟩ := spend_pending when s.sender.next batch.basis h.order
        (by
          intro p hp heq
          have hin : pendingEntry p ∈ s.sender.book.pending.map pendingEntry :=
            List.mem_map_of_mem hp
          have hlt := hfresh _ ((h.pending _).mp hin).1
          exact absurd (mark_stamp_lt.mp hlt) (by rw [heq]; exact lt_irrefl _))
      refine ⟨?_, ?_, ?_, ?_, ?_⟩
      · rw [hbook, hsize]
        exact h.size
      · rw [hbook, happlied]
        exact h.length
      · rw [hbook]
        exact horder
      · intro e
        have hsame : unread l' s.answered.length e.toChange =
            unread l s.answered.length e.toChange := by simp only [unread, htake]
        have hnew : unread l s.answered.length (entryOf when s.sender.next batch.basis).toChange =
            true ↔ batch.basis ≠ [] := by
          have hnot : (entryOf when s.sender.next batch.basis).stamp ∉
              (l.answers.take s.answered.length).map fun a => a.1.stamp := by
            intro hread
            obtain ⟨a, ha, hstamp⟩ := List.mem_map.mp hread
            have hlt := hfresh a.1 (answered_sent hl (List.mem_of_mem_take ha))
            rw [hstamp] at hlt
            exact lt_irrefl _ hlt
          simp only [unread, decide_eq_true_eq]
          refine ⟨fun hu hb => hu.2 (by simp [entryOf, change, hb]), fun hb => ⟨hnot, ?_⟩⟩
          simpa [entryOf, change] using hb
        rw [hbook, hanswered, hmem, h.pending, hsent, List.mem_append, List.mem_singleton, hsame]
        constructor
        · rintro (⟨hin, hu⟩ | ⟨hb, rfl⟩)
          · exact ⟨Or.inl hin, hu⟩
          · exact ⟨Or.inr rfl, hnew.mpr hb⟩
        · rintro ⟨hin | rfl, hu⟩
          · exact Or.inl ⟨hin, hu⟩
          · exact Or.inr ⟨hnew.mp hu, rfl⟩
      · rw [hbook, hanswered, happlied]
        obtain ⟨habove, hshown, hsource⟩ := h.read
        refine ⟨habove, ?_, ?_⟩
        · rw [htake]
          exact hshown
        · rw [htake]
          exact hsource

theorem poll_tracks (h : Tracks targets s l) (ha : Enabled Batch.basis s .poll) :
    Tracks targets (next s .poll) l := by
  obtain ⟨hi, hb, hl, hf, hacc⟩ := h
  refine ⟨next_invariant hi ha, next_based hb ha trivial, hl, poll_follows hf, ?_⟩
  cases hpop : s.answers.tryPop with
  | some r => exact poll_accounts hl hf hacc hpop
  | none =>
    refine accounts_congr hacc hf ?_ ?_ rfl List.prefix_rfl
    · simp only [next, hpop]
    · simp only [next, hpop]

/-- While the inbox lives, a step that neither sends nor reads moves batches only. -/
theorem next_moves (h : Tracks targets s l) {a : Action P} (ha : orderly.Enabled s a)
    (hpush : a ≠ .push) (hpoll : a ≠ .poll) : Moves Batch.basis s (next s a) := by
  cases a with
  | push => exact absurd rfl hpush
  | poll => exact absurd rfl hpoll
  | popOrphan => exact absurd ha.1 h.follows.sends.held
  | reply =>
    apply reply_moves
    have := h.invariant.credits
    omega
  | unanswer =>
    have hstage := ha.1.1
    rw [h.follows.judges.live] at hstage
    cases hstage
  | _ => exact calm_moves ha.1 trivial

theorem next_tracks (h : Tracks targets s l) {a : Action P} (ha : orderly.Enabled s a) :
    ∃ l', Steps (base targets) l l' ∧ Tracks targets (next s a) l' ∧ (a = .poll → l' = l) := by
  by_cases hpoll : a = .poll
  · subst hpoll
    exact ⟨l, .refl, poll_tracks h ha.1, fun _ => rfl⟩
  have hmoves := next_moves h ha
  obtain ⟨hi, hb, hl, hf, hacc⟩ := h
  obtain ⟨henabled, horderly⟩ := ha
  obtain ⟨l', hsteps, hf'⟩ := next_follows hi hb hl hf henabled horderly
  have hnames : NamesEarlier s a := by
    cases a with
    | push => exact horderly.2.1
    | _ => trivial
  refine ⟨l', hsteps, ⟨next_invariant hi henabled, next_based hb henabled hnames,
    OrderedExecution.steps_invariant hl hsteps, hf', ?_⟩, fun h => absurd h hpoll⟩
  by_cases hpush : a = .push
  · subst hpush
    exact push_accounts hl hf hacc hf' hsteps
  · have hm := hmoves hpush hpoll
    refine accounts_congr hacc hf (congrArg Sender.book hm.sender) hm.answered ?_
      (OrderedProjection.steps_answers hsteps)
    rw [hf'.sends.sent, hm.accepted, hf.sends.sent]

theorem view_runOne (ledger : Ledger) (sent : Sent P) :
    view (runOne ledger sent) = BasisReplay.judge (view ledger) (sentEntry sent).toChange := by
  simp only [runOne]
  by_cases hc : ledger.isCurrent sent.batch.basis = true
  · rw [if_pos hc, view_record hc]
    exact (BasisReplay.judge_of_current (current_view.mpr hc)).symm
  · rw [if_neg hc]
    exact (BasisReplay.judge_of_not fun h => hc (current_view.mp h)).symm

theorem view_foldl_runOne (ledger : Ledger) (sents : List (Sent P)) :
    view (sents.foldl runOne ledger) =
      BasisReplay.replay (view ledger) ((sents.map sentEntry).map Entry.toChange) := by
  induction sents generalizing ledger with
  | nil => rfl
  | cons sent rest ih =>
    rw [List.foldl_cons, ih, view_runOne]
    rfl

def bookOne (ledger : List (Option ℕ)) (p : Pending P) : List (Option ℕ) :=
  if p.basis.all fun entry => ledger[entry.1]? = some entry.2 then
    p.basis.foldl (fun ledger entry => ledger.set entry.1 (some p.seq)) ledger
  else ledger

theorem set_view (seq : ℕ) (basis : List (ℕ × Option ℕ)) (ledger : List (Option ℕ)) (t : ℕ) :
    view ⟨basis.foldl (fun ledger entry => ledger.set entry.1 (some seq)) ledger⟩ t =
      if t ∈ basis.map Prod.fst ∧ t < ledger.length then mark (some (some seq))
      else view ⟨ledger⟩ t := by
  induction basis generalizing ledger with
  | nil => simp
  | cons entry rest ih =>
    rw [List.foldl_cons, ih, List.length_set]
    simp only [view, List.getElem?_set]
    by_cases hlt : t < ledger.length
    · by_cases ht : entry.1 = t
      · subst ht
        simp [hlt]
      · by_cases hr : t ∈ rest.map Prod.fst
        · simp [hr, hlt]
        · simp [hr, hlt, ht, Ne.symm ht]
    · have hnone : ledger[t]? = none := List.getElem?_eq_none (not_lt.mp hlt)
      by_cases ht : entry.1 = t
      · simp [hlt, ht]
      · simp [hlt, ht]

theorem view_bookOne (ledger : List (Option ℕ)) (p : Pending P) :
    view ⟨bookOne ledger p⟩ = BasisReplay.judge (view ⟨ledger⟩) (pendingEntry p).toChange := by
  have hiff : (p.basis.all fun entry => ledger[entry.1]? = some entry.2) = true ↔
      Current (view ⟨ledger⟩) (pendingEntry p).toChange := by
    simp only [Current, pendingEntry, view, List.forall_mem_map, List.all_eq_true,
      decide_eq_true_eq, mark_injective.eq_iff]
  simp only [bookOne]
  by_cases hc : Current (view ⟨ledger⟩) (pendingEntry p).toChange
  · rw [if_pos (hiff.mpr hc), BasisReplay.judge_of_current hc]
    funext t
    have hnames : (pendingEntry p).names = p.basis.map Prod.fst := by
      simp [pendingEntry, Change.names, Function.comp_def]
    rw [set_view]
    by_cases ht : t ∈ (pendingEntry p).names
    · rw [BasisReplay.record_of_mem ht]
      have hin : t < ledger.length := by
        rw [hnames] at ht
        obtain ⟨entry, hentry, rfl⟩ := List.mem_map.mp ht
        have hlast := of_decide_eq_true (List.all_eq_true.mp (hiff.mpr hc) entry hentry)
        exact (List.getElem?_eq_some_iff.mp hlast).1
      rw [if_pos ⟨hnames ▸ ht, hin⟩]
      rfl
    · rw [BasisReplay.record_of_notMem ht, if_neg fun h => ht (hnames ▸ h.1)]
  · rw [if_neg (mt hiff.mp hc), BasisReplay.judge_of_not hc]

theorem view_foldl_bookOne (ledger : List (Option ℕ)) (ps : List (Pending P)) :
    view ⟨ps.foldl bookOne ledger⟩ =
      BasisReplay.replay (view ⟨ledger⟩) ((ps.map pendingEntry).map Entry.toChange) := by
  induction ps generalizing ledger with
  | nil => rfl
  | cons p rest ih =>
    rw [List.foldl_cons, ih, view_bookOne]
    rfl

theorem timed_le {a b : P.Clock} : (When.timed a : When P.Clock) ≤ .timed b ↔ a ≤ b := by
  show When.rank (.timed a) ≤ When.rank (.timed b) ↔ a ≤ b
  simp [When.rank]

theorem foldl_insert_perm (items acc : List (Sent P)) :
    (items.foldl (fun acc sent => insertByKey sent acc) acc).Perm (items ++ acc) := by
  induction items generalizing acc with
  | nil => exact List.Perm.refl _
  | cons sent rest ih =>
    rw [List.foldl_cons]
    refine (ih _).trans ?_
    exact ((Docket.insertByKey_perm sent acc).append_left rest).trans List.perm_middle

theorem foldl_insert_order {items acc : List (Sent P)}
    (hacc : acc.Pairwise fun a b => a.key < b.key)
    (hne : (items ++ acc).Pairwise fun a b => a.key ≠ b.key) :
    (items.foldl (fun acc sent => insertByKey sent acc) acc).Pairwise
      fun a b => a.key < b.key := by
  induction items generalizing acc with
  | nil => exact hacc
  | cons sent rest ih =>
    rw [List.foldl_cons]
    have hhead : ∀ other ∈ rest ++ acc, sent.key ≠ other.key :=
      fun other hother => List.rel_of_pairwise_cons hne hother
    apply ih
    · apply Docket.insertByKey_order hacc
      exact fun item hitem => Ne.symm (hhead item (List.mem_append_right rest hitem))
    · have hperm : (sent :: (rest ++ acc)).Perm (rest ++ insertByKey sent acc) :=
        List.perm_middle.symm.trans ((Docket.insertByKey_perm sent acc).symm.append_left rest)
      exact hperm.pairwise hne fun h => Ne.symm h

theorem toRun_perm (s : State P capacity) :
    (toRun s).Perm (s.commands.items ++ (handSent s.hand ++ s.docket.schedule)) :=
  foldl_insert_perm _ _

theorem toRun_order (hl : OrderedExecution.Invariant (base targets) l)
    (hf : Follows targets s l) : (toRun s).Pairwise fun a b => a.key < b.key := by
  apply foldl_insert_order hf.judges.order
  have hentries := hf.judges.waiting.symm.pairwise
    (OrderedProjection.waiting_keys hl) fun h => Ne.symm h
  exact (List.pairwise_map (f := sentEntry)
    (R := fun a b : Entry ℕ Mark (Key P) => a.key ≠ b.key)).mp hentries

theorem shifted_upTo (hf : Follows targets s l) {w : P.Clock}
    (hw : ∀ moment ∈ executed s, moment ≤ w) : ∀ e ∈ l.shifted, (ofLex e.key).1 ≤ .timed w := by
  intro e he
  obtain ⟨moment, hmoment, seq, basis, rfl⟩ := shifted_executed hf.replies he
  exact timed_le.mpr (hw moment hmoment)

theorem slice_upTo (hl : OrderedExecution.Invariant (base targets) l) (hf : Follows targets s l)
    {w : P.Clock} (hw : ∀ e ∈ l.shifted, (ofLex e.key).1 ≤ .timed w) : ∃ H,
      Slice l H (((toRun s).filter fun sent => sent.when ≤ .timed w).map sentEntry) ∧
      ∀ e, e ∈ H ↔ e ∈ l.sent ∧ (ofLex e.key).1 ≤ .timed w := by
  obtain ⟨H, horder, hmem⟩ := OrderedProjection.exists_inOrder
    (l.sent.filter fun e => (ofLex e.key).1 ≤ .timed w) (hl.keys.filter _)
  have hH : ∀ e, e ∈ H ↔ e ∈ l.sent ∧ (ofLex e.key).1 ≤ .timed w := by
    intro e
    rw [hmem, List.mem_filter, decide_eq_true_eq]
  refine ⟨H, ⟨horder, fun e he => ((hH e).mp he).1, ?_, ?_, ?_⟩, hH⟩
  · exact fun e he => (hH e).mpr ⟨hl.shifted e he, hw e he⟩
  · exact (List.pairwise_map (f := sentEntry)
      (R := fun a b : Entry ℕ Mark (Key P) => a.key < b.key)).mpr ((toRun_order hl hf).filter _)
  · intro e
    have hrun : e ∈ l.waiting ↔ ∃ x ∈ toRun s, sentEntry x = e := by
      rw [← hf.judges.waiting.mem_iff, List.mem_map]
      simp only [(toRun_perm s).mem_iff]
    rw [hrun, hH, List.mem_map]
    constructor
    · rintro ⟨x, hx, rfl⟩
      obtain ⟨hxrun, hxw⟩ := List.mem_filter.mp hx
      refine ⟨⟨x, hxrun, rfl⟩, hl.waiting _ (hrun.mpr ⟨x, hxrun, rfl⟩), ?_⟩
      exact of_decide_eq_true hxw
    · rintro ⟨⟨x, hx, rfl⟩, _, hxw⟩
      exact ⟨x, List.mem_filter.mpr ⟨hx, decide_eq_true hxw⟩, rfl⟩

theorem takeWhile_eq_filter {α : Type*} {R : α → α → Prop} {p : α → Bool} {items : List α}
    (h : items.Pairwise R) (hp : ∀ a b, R a b → p b = true → p a = true) :
    items.takeWhile p = items.filter p := by
  induction items with
  | nil => rfl
  | cons x xs ih =>
    by_cases hx : p x = true
    · rw [List.takeWhile_cons_of_pos hx, List.filter_cons_of_pos hx, ih h.of_cons]
    · rw [List.takeWhile_cons_of_neg hx, List.filter_cons_of_neg hx]
      symm
      apply List.filter_eq_nil_iff.mpr
      intro y hy hpy
      exact hx (hp x y (List.rel_of_pairwise_cons h hy) hpy)

def shown (b : Book P) (w : P.Clock) : List (Option ℕ) :=
  (b.pending.takeWhile fun p => p.when ≤ .timed w).foldl bookOne b.applied

theorem basis_eq (b : Book P) (target : P.Target) (w : P.Clock) :
    b.basis target (.timed w) = if P.index target ≥ b.targets then none
      else ((shown b w)[P.index target]?).join := rfl

theorem view_shown (h : Accounts targets s l) {w : P.Clock} {H : List (Entry ℕ Mark (Key P))}
    (horder : InOrder H) (hH : ∀ e, e ∈ H ↔ e ∈ l.sent ∧ (ofLex e.key).1 ≤ .timed w) :
    view ⟨shown s.sender.book w⟩ = BasisReplay.replay (view ⟨s.sender.book.applied⟩)
      ((H.map Entry.toChange).filter (unread l s.answered.length)) := by
  have hpairs := (List.pairwise_map (f := pendingEntry)
    (R := fun a b : Entry ℕ Mark (Key P) => a.key < b.key)).mp h.order
  have hfilter : s.sender.book.pending.takeWhile (fun p => p.when ≤ .timed w) =
      s.sender.book.pending.filter (fun p => p.when ≤ .timed w) := by
    apply takeWhile_eq_filter hpairs
    intro a b hab hb
    have hle : a.when ≤ b.when := by
      rcases Prod.Lex.toLex_lt_toLex.mp hab with hlt | heq
      · exact hlt.le
      · exact heq.1.le
    exact decide_eq_true (hle.trans (of_decide_eq_true hb))
  have hentries : (s.sender.book.pending.filter fun p => p.when ≤ .timed w).map pendingEntry =
      H.filter fun e => unread l s.answered.length e.toChange := by
    apply OrderedProjection.inOrder_ext
    · exact (List.pairwise_map (f := pendingEntry)
        (R := fun a b : Entry ℕ Mark (Key P) => a.key < b.key)).mpr (hpairs.filter _)
    · exact horder.filter _
    · intro e
      rw [List.mem_filter, hH, and_right_comm, ← h.pending, List.mem_map, List.mem_map]
      constructor
      · rintro ⟨p, hp, rfl⟩
        obtain ⟨hin, hw⟩ := List.mem_filter.mp hp
        exact ⟨⟨p, hin, rfl⟩, of_decide_eq_true hw⟩
      · rintro ⟨⟨p, hin, rfl⟩, hw⟩
        exact ⟨p, List.mem_filter.mpr ⟨hin, decide_eq_true hw⟩, rfl⟩
  rw [shown, view_foldl_bookOne, hfilter, hentries, List.filter_map]
  rfl

theorem onceRun_view (s : State P capacity) (w : P.Clock) : view (onceRun s w) =
    BasisReplay.replay (view s.docket.ledger)
      ((((toRun s).filter fun sent => sent.when ≤ .timed w).map sentEntry).map
        Entry.toChange) := view_foldl_runOne _ _

theorem view_eq_bot {ledger : Ledger} {t : ℕ} : view ledger t = ⊥ ↔ ledger.last.length ≤ t := by
  rw [← List.getElem?_eq_none_iff]
  simp only [view]
  cases h : ledger.last[t]? with
  | none => simp [mark]
  | some last => simp [mark_some_ne_bot]

theorem base_eq_bot {t : ℕ} : base targets t = ⊥ ↔ targets ≤ t := by
  rw [base, view_eq_bot]
  simp [Ledger.new]

theorem ledger_length (hl : OrderedExecution.Invariant (base targets) l)
    (hf : Follows targets s l) : s.docket.ledger.last.length = targets := by
  have hview := hf.judges.ledger
  apply le_antisymm
  · apply view_eq_bot.mp
    have hnone : BasisReplay.lastStamp (l.shifted.map Entry.toChange) targets = none := by
      have hfilter : (l.shifted.map Entry.toChange).filter (fun c => targets ∈ c.names) = [] := by
        apply List.filter_eq_nil_iff.mpr
        intro c hc hin
        obtain ⟨e, he, rfl⟩ := List.mem_map.mp hc
        exact lt_irrefl _ (shifted_in_range hl hf he (of_decide_eq_true hin))
      simp [BasisReplay.lastStamp, hfilter]
    rw [hview, OrderedExecution.ledger, BasisReplay.foldl_record, hnone]
    exact base_eq_bot.mpr le_rfl
  · by_contra hlt
    have hbot : view s.docket.ledger s.docket.ledger.last.length = ⊥ := view_eq_bot.mpr le_rfl
    have hgrow : base targets ≤ OrderedExecution.ledger (base targets) l := by
      apply BasisReplay.le_foldl_record hl.chain
      intro c hc
      obtain ⟨e, he, rfl⟩ := List.mem_map.mp hc
      exact (hl.strict e (hl.shifted e he)).forward
    rw [hview] at hbot
    have hle := hgrow s.docket.ledger.last.length
    rw [hbot] at hle
    exact hlt (base_eq_bot.mp (le_bot_iff.mp hle))

theorem runOne_length (ledger : Ledger) (sents : List (Sent P)) :
    (sents.foldl runOne ledger).last.length = ledger.last.length := by
  induction sents generalizing ledger with
  | nil => rfl
  | cons sent rest ih =>
    rw [List.foldl_cons, ih]
    simp only [runOne]
    split
    · simp [Ledger.record]
    · rfl

theorem bookOne_length (ledger : List (Option ℕ)) (ps : List (Pending P)) :
    (ps.foldl bookOne ledger).length = ledger.length := by
  induction ps generalizing ledger with
  | nil => rfl
  | cons p rest ih =>
    rw [List.foldl_cons, ih]
    have hset (basis : List (ℕ × Option ℕ)) (ledger : List (Option ℕ)) :
        (basis.foldl (fun ledger entry => ledger.set entry.1 (some p.seq)) ledger).length =
          ledger.length := by
      induction basis generalizing ledger with
      | nil => rfl
      | cons entry rest ih => rw [List.foldl_cons, ih, List.length_set]
    simp only [bookOne]
    split
    · exact hset p.basis ledger
    · rfl

/-- Inside the level the projection and the ledger show the same stamp or name different ones. -/
theorem entry_eq_iff {a b : Ledger} {t : ℕ} (ha : t < a.last.length) (hb : t < b.last.length) :
    (a.last[t]?).join = (b.last[t]?).join ↔ view a t = view b t := by
  simp only [view, mark_injective.eq_iff, List.getElem?_eq_getElem ha, List.getElem?_eq_getElem hb,
    Option.join_some, Option.some.injEq]

theorem exists_upper (moments : List P.Clock) (start : P.Clock) :
    ∃ w, start ≤ w ∧ ∀ moment ∈ moments, moment ≤ w := by
  induction moments with
  | nil => exact ⟨start, le_rfl, fun m hm => absurd hm List.not_mem_nil⟩
  | cons first rest ih =>
    obtain ⟨w, hstart, hall⟩ := ih
    refine ⟨max first w, hstart.trans (le_max_right _ _), ?_⟩
    intro m hm
    rcases List.mem_cons.mp hm with rfl | hm
    · exact le_max_left _ _
    · exact (hall m hm).trans (le_max_right _ _)

/-- The projection agrees exactly while no unread shift is read past unevenly. -/
theorem agrees_iff_uniform (h : Tracks targets s l) :
    Agrees s ↔ Uniform l s.answered.length := by
  obtain ⟨hi, hb, hl, hf, hacc⟩ := h
  have hrunLength (w : P.Clock) : (onceRun s w).last.length = targets :=
    (runOne_length _ _).trans (ledger_length hl hf)
  have hshownLength (w : P.Clock) : (shown s.sender.book w).length = targets :=
    (bookOne_length _ _).trans hacc.length
  constructor
  · intro hagrees
    by_contra huniform
    obtain ⟨e, he, t, ht, hmiss⟩ := OrderedProjection.unread_misses hl hacc.read huniform
    obtain ⟨moment, _, _⟩ := shifted_executed hf.replies he
    obtain ⟨w, _, hw⟩ := exists_upper (executed s) moment
    obtain ⟨H, hslice, hH⟩ := slice_upTo hl hf (shifted_upTo hf hw)
    have hrange := shifted_in_range hl hf he ht
    obtain ⟨target, rfl⟩ : ∃ target : P.Target, P.index target = t := by
      have hsent := hl.shifted e he
      rw [hf.sends.sent] at hsent
      obtain ⟨sent, _, rfl⟩ := List.mem_map.mp hsent
      obtain ⟨b, hb, rfl⟩ := List.mem_map.mp ht
      obtain ⟨entry, _, rfl⟩ := List.mem_map.mp hb
      exact ⟨entry.1, rfl⟩
    have hentry := hagrees target w hw
    rw [basis_eq, hacc.size, if_neg (not_le.mpr hrange)] at hentry
    have hview := (entry_eq_iff (a := ⟨shown s.sender.book w⟩) (b := onceRun s w)
      (by rw [hshownLength]; exact hrange) (by rw [hrunLength]; exact hrange)).mp hentry
    apply hmiss H _ hslice
    rw [← view_shown hacc hslice.order hH, ← hf.judges.ledger, ← onceRun_view]
    exact hview
  · intro huniform target w hw
    obtain ⟨H, hslice, hH⟩ := slice_upTo hl hf (shifted_upTo hf hw)
    have hsame : view ⟨shown s.sender.book w⟩ = view (onceRun s w) := by
      rw [view_shown hacc hslice.order hH, onceRun_view, hf.judges.ledger]
      exact OrderedProjection.unread_agrees hl hslice hacc.read huniform
    rw [basis_eq, hacc.size]
    by_cases hrange : P.index target < targets
    · rw [if_neg (not_le.mpr hrange)]
      apply (entry_eq_iff (a := ⟨shown s.sender.book w⟩) (b := onceRun s w)
        (by rw [hshownLength]; exact hrange) (by rw [hrunLength]; exact hrange)).mpr
      rw [hsame]
    · have hout := not_lt.mp hrange
      rw [if_pos hout, List.getElem?_eq_none (by rw [hrunLength]; exact hout)]
      rfl

end CommandProjection

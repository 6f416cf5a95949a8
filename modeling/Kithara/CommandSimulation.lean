import Kithara.OrderedProjection
import Kithara.CommandBasis

/-! A channel whose batches are all timed, drained before the executor walks past them and run
when they are current does no more than a line of changes judged in the order of their keys. -/
namespace CommandSimulation

open CommandProtocol CommandDocket CommandLevel CommandChannel CommandAnswers CommandBasis
open BasisReplay (Current Strict)
open OrderedExecution (Entry Line Step Steps)

variable {P : Protocol} {capacity : ℕ}

abbrev Mark := WithBot (WithBot ℕ)

abbrev Key (P : Protocol) := When P.Clock ×ₗ ℕ

def entryOf (when : When P.Clock) (seq : ℕ) (basis : List (P.Target × Option ℕ)) :
    Entry ℕ Mark (Key P) where
  toChange := change seq basis
  key := toLex (when, seq)

def sentEntry (sent : Sent P) : Entry ℕ Mark (Key P) :=
  entryOf sent.when sent.seq sent.batch.basis

def committedEntry (entry : P.Clock × Sent P) : Entry ℕ Mark (Key P) :=
  entryOf (.timed entry.1) entry.2.seq entry.2.batch.basis

/-- The batch in hand as it was sent. -/
def handSent : Hand P → List (Sent P)
  | .due held => [{ batch := held.batch, seq := held.seq, when := .timed held.moment }]
  | _ => []

/-- Every receipt in the order it was given, read or not. -/
def queue (s : State P capacity) : List (Receipt P) := s.answered ++ s.answers.items ++ s.replies

def appliedAt (receipt : Receipt P) : Option P.Clock :=
  match receipt.outcome with
  | .applied moment _ => some moment
  | .rejected _ => none

def executed (s : State P capacity) : List P.Clock :=
  s.docket.committed.map Prod.fst ++ (queue s).filterMap appliedAt

/-- The runs the projection is made for: every batch is sent at a moment, names batches sent
before it, and is drained before the executor walks past its moment; the executor finds none
late and answers each current batch by applying or committing it. -/
def Orderly (s : State P capacity) : Action P → Prop
  | .enter when _ => ∃ moment, when = .timed moment
  | .push => s.sender.next < 2 ^ 64 - 1 ∧ NamesEarlier s .push ∧
      ∀ when batch, s.phase = .admitted when batch → ∀ moment ∈ executed s, .timed moment ≤ when
  | .nextDue start frames =>
    (∀ receipt ∈ (takeDue s.docket start frames).replies, receipt.outcome = .rejected .stale) ∧
      ∀ judged ∈ s.docket.schedule, judged ∉ (takeDue s.docket start frames).docket.schedule →
        ∀ sent ∈ s.commands.items, judged.when ≤ sent.when
  | .apply _ | .commit => ∀ held, s.hand = .due held →
      ∀ sent ∈ s.commands.items, .timed held.moment ≤ sent.when
  | .refuse _ | .defer | .drop | .refuseTimed _ | .close => False
  | _ => True

/-- A receipt and the answer of the line it stands for. -/
def Answers (receipt : Receipt P) (answer : Entry ℕ Mark (Key P) × Bool) : Prop :=
  ∃ when, answer.1 = entryOf when receipt.seq receipt.batch.basis ∧
    match receipt.outcome with
    | .applied moment _ => when = .timed moment ∧ answer.2 = true
    | .rejected .stale => answer.2 = false
    | .rejected _ => False

structure Sends (s : State P capacity) (l : Line ℕ Mark (Key P)) : Prop where
  sent : l.sent = s.accepted.map sentEntry
  fresh : ∀ sent ∈ s.accepted, sent.seq < s.sender.next
  timed : ∀ sent ∈ s.accepted, ∃ moment, sent.when = .timed moment
  admitted : ∀ when batch, s.phase = .admitted when batch → ∃ moment, when = .timed moment
  held : s.phase ≠ .orphaning

/-- The executor's side of the line. -/
structure Judges (targets : ℕ) (s : State P capacity) (l : Line ℕ Mark (Key P)) : Prop where
  waiting : ((s.commands.items ++ (handSent s.hand ++ s.docket.schedule)).map sentEntry).Perm
    l.waiting
  ledger : view s.docket.ledger = OrderedExecution.ledger (view (Ledger.new targets)) l
  drained : ∃ drained, s.accepted = drained ++ s.commands.items ∧
    ∀ sent ∈ handSent s.hand ++ s.docket.schedule, sentEntry sent ∈ drained.map sentEntry
  order : (handSent s.hand ++ s.docket.schedule).Pairwise fun a b => a.key < b.key
  arrived : s.docket.arrived = []
  parked : s.docket.parked = []
  live : s.stage = .live
  due : s.holdsDeferred = false

/-- The receipts and the answers of the line. -/
structure Replies (s : State P capacity) (l : Line ℕ Mark (Key P)) : Prop where
  answers : List.Forall₂ Answers (queue s) l.answers
  committed : ∀ entry ∈ s.docket.committed, committedEntry entry ∈ l.shifted
  owed : ∀ e ∈ l.shifted, (∃ entry ∈ s.docket.committed, e = committedEntry entry) ∨
    (e, true) ∈ l.answers

structure Follows (targets : ℕ) (s : State P capacity) (l : Line ℕ Mark (Key P)) : Prop where
  sends : Sends s l
  judges : Judges targets s l
  replies : Replies s l

theorem start_follows (targets : ℕ) :
    Follows targets (start targets : State P capacity) Line.empty := by
  refine ⟨⟨rfl, by simp [start], by simp [start], ?_, ?_⟩, ⟨.nil, rfl, ⟨[], rfl, ?_⟩, .nil, rfl, rfl,
    rfl, rfl⟩, ⟨.nil, by simp [start, Docket.new], by simp [Line.empty]⟩⟩
  · exact fun when batch h => by cases h
  · exact fun h => by cases h
  · exact fun sent h => absurd h List.not_mem_nil

theorem sends_congr {s s' : State P capacity} {l : Line ℕ Mark (Key P)} (h : Sends s l)
    (haccepted : s'.accepted = s.accepted) (hnext : s'.sender.next = s.sender.next)
    (hphase : s'.phase = s.phase ∨ s'.phase = .idle ∨ s'.phase = .emptied) : Sends s' l := by
  refine ⟨?_, ?_, ?_, ?_, ?_⟩
  · rw [haccepted]
    exact h.sent
  · rw [haccepted, hnext]
    exact h.fresh
  · rw [haccepted]
    exact h.timed
  · intro when batch hadmitted
    rcases hphase with hphase | hphase | hphase
    · exact h.admitted when batch (hphase.symm.trans hadmitted)
    · rw [hphase] at hadmitted
      cases hadmitted
    · rw [hphase] at hadmitted
      cases hadmitted
  · rcases hphase with hphase | hphase | hphase
    · rw [hphase]
      exact h.held
    · exact fun ho => by rw [hphase] at ho; cases ho
    · exact fun ho => by rw [hphase] at ho; cases ho

theorem judges_congr {targets : ℕ} {s s' : State P capacity} {l l' : Line ℕ Mark (Key P)}
    (h : Judges targets s l) (hcommands : s'.commands = s.commands)
    (hhand : (handSent s'.hand).map sentEntry = (handSent s.hand).map sentEntry)
    (hdeferred : s'.holdsDeferred = s.holdsDeferred)
    (hschedule : s'.docket.schedule = s.docket.schedule)
    (hledger : s'.docket.ledger = s.docket.ledger) (harrived : s'.docket.arrived = s.docket.arrived)
    (hparked : s'.docket.parked = s.docket.parked) (haccepted : s'.accepted = s.accepted)
    (hstage : s'.stage = s.stage) (hwaiting : l'.waiting = l.waiting)
    (hshifted : l'.shifted = l.shifted) : Judges targets s' l' := by
  have hlist : (handSent s'.hand ++ s'.docket.schedule).map sentEntry =
      (handSent s.hand ++ s.docket.schedule).map sentEntry := by
    rw [List.map_append, List.map_append, hhand, hschedule]
  refine ⟨?_, ?_, ?_, ?_, ?_, ?_, ?_, ?_⟩
  · rw [hcommands, List.map_append, hlist, ← List.map_append, hwaiting]
    exact h.waiting
  · rw [hledger, h.ledger, OrderedExecution.ledger, OrderedExecution.ledger, hshifted]
  · obtain ⟨drained, hd, hin⟩ := h.drained
    refine ⟨drained, by rw [haccepted, hcommands, hd], fun sent hsent => ?_⟩
    have hmem : sentEntry sent ∈ (handSent s.hand ++ s.docket.schedule).map sentEntry :=
      hlist ▸ List.mem_map_of_mem hsent
    obtain ⟨other, hother, he⟩ := List.mem_map.mp hmem
    rw [← he]
    exact hin other hother
  · have horder : ((handSent s.hand ++ s.docket.schedule).map sentEntry).Pairwise
        fun a b => a.key < b.key := List.pairwise_map.mpr h.order
    rw [← hlist] at horder
    exact (List.pairwise_map (f := sentEntry)
      (R := fun a b : Entry ℕ Mark (Key P) => a.key < b.key)).mp horder
  · rw [harrived]
    exact h.arrived
  · rw [hparked]
    exact h.parked
  · rw [hstage]
    exact h.live
  · rw [hdeferred]
    exact h.due

theorem replies_congr {s s' : State P capacity} {l l' : Line ℕ Mark (Key P)} (h : Replies s l)
    (hqueue : queue s' = queue s)
    (hcommitted : s'.docket.committed.map committedEntry = s.docket.committed.map committedEntry)
    (hanswers : l'.answers = l.answers) (hshifted : l'.shifted = l.shifted) : Replies s' l' := by
  refine ⟨?_, ?_, ?_⟩
  · rw [hqueue, hanswers]
    exact h.answers
  · intro entry hentry
    have hmem : committedEntry entry ∈ s.docket.committed.map committedEntry :=
      hcommitted ▸ List.mem_map_of_mem hentry
    obtain ⟨other, hother, he⟩ := List.mem_map.mp hmem
    rw [← he, hshifted]
    exact h.committed other hother
  · rw [hshifted, hanswers]
    intro e he
    refine (h.owed e he).imp_left ?_
    rintro ⟨entry, hentry, rfl⟩
    have hmem : committedEntry entry ∈ s'.docket.committed.map committedEntry :=
      hcommitted ▸ List.mem_map_of_mem hentry
    obtain ⟨other, hother, he⟩ := List.mem_map.mp hmem
    exact ⟨other, hother, he.symm⟩

variable {targets : ℕ} {s : State P capacity} {l : Line ℕ Mark (Key P)}

abbrev base (targets : ℕ) : ℕ → Mark := view (Ledger.new targets)

theorem mark_stamp_lt {a b : ℕ} : mark (some (some a)) < mark (some (some b)) ↔ a < b := by
  simp [mark]

theorem key_lt_iff {a b : Sent P} :
    a.key < b.key ↔ a.when < b.when ∨ (a.when = b.when ∧ a.seq < b.seq) := Prod.Lex.toLex_lt_toLex

theorem Forall₂.mem_right {α β : Type*} {R : α → β → Prop} {as : List α} {bs : List β}
    (h : List.Forall₂ R as bs) {b : β} (hb : b ∈ bs) : ∃ a ∈ as, R a b := by
  induction h with
  | nil => exact absurd hb List.not_mem_nil
  | cons hr _ ih =>
    rcases List.mem_cons.mp hb with rfl | hb
    · exact ⟨_, List.mem_cons_self, hr⟩
    · obtain ⟨a, ha, hab⟩ := ih hb
      exact ⟨a, List.mem_cons_of_mem _ ha, hab⟩

theorem Forall₂.append {α β : Type*} {R : α → β → Prop} {as as' : List α} {bs bs' : List β}
    (h : List.Forall₂ R as bs) (h' : List.Forall₂ R as' bs') :
    List.Forall₂ R (as ++ as') (bs ++ bs') := by
  induction h with
  | nil => exact h'
  | cons hr _ ih => exact .cons hr ih

theorem shifted_executed (h : Replies s l) {e : Entry ℕ Mark (Key P)} (he : e ∈ l.shifted) :
    ∃ moment ∈ executed s, ∃ seq basis, e = entryOf (.timed moment) seq basis := by
  rcases h.owed e he with ⟨entry, hentry, rfl⟩ | hanswered
  · refine ⟨entry.1, ?_, entry.2.seq, entry.2.batch.basis, rfl⟩
    exact List.mem_append_left _ (List.mem_map_of_mem hentry)
  · obtain ⟨receipt, hreceipt, when, rfl, htook⟩ := Forall₂.mem_right h.answers hanswered
    cases ho : receipt.outcome with
    | applied moment data =>
      rw [ho] at htook
      obtain ⟨rfl, _⟩ := htook
      refine ⟨moment, ?_, receipt.seq, receipt.batch.basis, rfl⟩
      apply List.mem_append_right
      exact List.mem_filterMap.mpr ⟨receipt, hreceipt, by simp [appliedAt, ho]⟩
    | rejected rejection =>
      rw [ho] at htook
      cases rejection with
      | stale => cases htook
      | late => exact htook.elim
      | refused refusal => exact htook.elim
      | unanswered => exact htook.elim

theorem strict_change {seq : ℕ} {basis : List (P.Target × Option ℕ)}
    (h : ∀ entry ∈ basis, ∀ m, entry.2 = some m → m < seq) : Strict (change seq basis) := by
  intro e he
  obtain ⟨entry, hentry, rfl⟩ := List.mem_map.mp he
  exact mark_lt.mpr ⟨seq, rfl, h entry hentry⟩

theorem push_follows (hl : OrderedExecution.Invariant (base targets) l) (h : Follows targets s l)
    (ho : Orderly s .push) :
    ∃ l', Steps (base targets) l l' ∧ Follows targets (next s .push) l' := by
  have idle : Follows targets { s with phase := .idle } l :=
    ⟨sends_congr h.sends rfl rfl (Or.inr (Or.inl rfl)),
      judges_congr h.judges rfl rfl rfl rfl rfl rfl rfl rfl rfl rfl rfl,
      replies_congr h.replies rfl rfl rfl rfl⟩
  simp only [next]
  cases hphase : s.phase with
  | admitted when batch =>
    dsimp only
    cases hpush : s.sender.push s.commands when batch with
    | error e => exact ⟨l, .refl, idle⟩
    | ok r =>
      obtain ⟨sent, sender, commands⟩ := r
      obtain ⟨rfl, rfl, _, hitems⟩ := push_cases hpush
      obtain ⟨hunspent, hnames, hahead⟩ := ho
      have hfresh (d : Entry ℕ Mark (Key P)) (hd : d ∈ l.sent) :
          ∃ x ∈ s.accepted, d = sentEntry x ∧ x.seq < s.sender.next := by
        rw [h.sends.sent] at hd
        obtain ⟨x, hx, rfl⟩ := List.mem_map.mp hd
        exact ⟨x, hx, rfl, h.sends.fresh x hx⟩
      let sent : Sent P := { batch := batch, seq := s.sender.next, when := when }
      have hnext : s.sender.next < Seq.next s.sender.next := by
        simp only [Seq.next]
        omega
      have hstep : Step (base targets) l { l with
          sent := l.sent ++ [sentEntry sent], waiting := l.waiting ++ [sentEntry sent] } := by
        apply Step.send
        · intro d hd
          obtain ⟨x, _, rfl, hlt⟩ := hfresh d hd
          refine ⟨mark_stamp_lt.mpr hlt, fun hkey => ?_⟩
          exact absurd (congrArg (fun k : Key P => (ofLex k).2) hkey) (ne_of_lt hlt)
        · apply strict_change
          intro entry hentry m hm
          obtain ⟨x, hx, rfl⟩ := List.mem_map.mp (hnames when batch hphase entry hentry m hm)
          exact h.sends.fresh x hx
        · intro d hd
          obtain ⟨moment, hmoment, seq, basis, he⟩ := shifted_executed h.replies hd
          obtain ⟨x, _, hx, hlt⟩ := hfresh d (hl.shifted d hd)
          have hseq : seq = x.seq := congrArg (fun e : Entry ℕ Mark (Key P) => (ofLex e.key).2)
            (he.symm.trans hx)
          rw [he]
          show toLex (When.timed moment, seq) < toLex (when, s.sender.next)
          rw [Prod.Lex.toLex_lt_toLex, hseq]
          rcases lt_or_eq_of_le (hahead when batch hphase moment hmoment) with hw | hw
          · exact Or.inl hw
          · exact Or.inr ⟨hw, hlt⟩
      refine ⟨_, .single hstep, ⟨?_, ?_, ?_, ?_, ?_⟩, ⟨?_, h.judges.ledger, ?_, h.judges.order,
        h.judges.arrived, h.judges.parked, h.judges.live, h.judges.due⟩, ?_⟩
      · simp only [h.sends.sent, List.map_append, List.map_singleton]
        rfl
      · intro x hx
        rcases List.mem_append.mp hx with hx | hx
        · exact (h.sends.fresh x hx).trans hnext
        · rw [List.mem_singleton.mp hx]
          exact hnext
      · intro x hx
        rcases List.mem_append.mp hx with hx | hx
        · exact h.sends.timed x hx
        · rw [List.mem_singleton.mp hx]
          exact h.sends.admitted when batch hphase
      · exact fun _ _ hadmitted => by cases hadmitted
      · exact fun hheld => by cases hheld
      · show ((commands.items ++ _).map sentEntry).Perm _
        rw [hitems, List.append_assoc, List.map_append, List.map_append]
        have hperm := h.judges.waiting.append_right [sentEntry sent]
        rw [List.map_append, List.append_assoc] at hperm
        exact (List.perm_append_comm.append_left _).trans hperm
      · obtain ⟨drained, hd, hin⟩ := h.judges.drained
        refine ⟨drained, ?_, hin⟩
        show s.accepted ++ [_] = drained ++ commands.items
        rw [hitems, hd, List.append_assoc]
      · exact replies_congr h.replies rfl rfl rfl rfl
  | idle => exact ⟨l, .refl, h⟩
  | emptied => exact ⟨l, .refl, h⟩
  | orphaning => exact ⟨l, .refl, h⟩

theorem drained_before (hl : OrderedExecution.Invariant (base targets) l)
    (h : Follows targets s l) {x sent : Sent P} (hx : x ∈ handSent s.hand ++ s.docket.schedule)
    (hsent : sent ∈ s.commands.items) : x.seq < sent.seq := by
  obtain ⟨drained, hd, hin⟩ := h.judges.drained
  have hstamps := hl.stamps
  rw [h.sends.sent, hd, List.map_append] at hstamps
  have hlt := (List.pairwise_append.mp hstamps).2.2 _ (hin x hx) _ (List.mem_map_of_mem hsent)
  exact mark_stamp_lt.mp hlt

theorem hand_of_empty (h : s.inHand = false) : handSent s.hand = [] := by
  rw [empty_hand h]
  rfl

theorem drain_follows (hl : OrderedExecution.Invariant (base targets) l)
    (h : Follows targets s l) (hhand : s.inHand = false) :
    Follows targets (next s .drain) l := by
  simp only [next]
  cases hpop : s.commands.tryPop with
  | none => exact h
  | some r =>
    obtain ⟨sent, commands⟩ := r
    have hitems := BoundedRing.Ring.tryPop_eq_some hpop
    have hin : sent ∈ s.commands.items := by rw [hitems]; exact List.mem_cons_self
    obtain ⟨drained, hd, hall⟩ := h.judges.drained
    have haccepted : sent ∈ s.accepted := by
      rw [hd]
      exact List.mem_append_right drained hin
    obtain ⟨moment, htimed⟩ := h.sends.timed sent haccepted
    have hinsert : s.docket.insert sent =
        { s.docket with schedule := insertByKey sent s.docket.schedule } := by
      simp only [Docket.insert, htimed]
    have hnil := hand_of_empty hhand
    have hperm : (insertByKey sent s.docket.schedule).Perm (sent :: s.docket.schedule) :=
      Docket.insertByKey_perm sent s.docket.schedule
    simp only [hinsert]
    refine ⟨sends_congr h.sends rfl rfl (Or.inl rfl), ⟨?_, h.judges.ledger, ?_, ?_,
      h.judges.arrived, h.judges.parked, h.judges.live, h.judges.due⟩,
      replies_congr h.replies rfl rfl rfl rfl⟩
    · have hwait := h.judges.waiting
      rw [hnil, List.nil_append, hitems] at hwait
      rw [hnil, List.nil_append]
      refine List.Perm.trans (List.Perm.map sentEntry ?_) hwait
      exact (hperm.append_left commands.items).trans List.perm_middle
    · refine ⟨drained ++ [sent], ?_, ?_⟩
      · show s.accepted = drained ++ [sent] ++ commands.items
        rw [hd, hitems, List.append_assoc]
        rfl
      · intro x hx
        rw [hnil, List.nil_append] at hx
        rw [List.map_append]
        rcases List.mem_cons.mp (hperm.mem_iff.mp hx) with rfl | hx
        · exact List.mem_append_right _ List.mem_cons_self
        · apply List.mem_append_left
          exact hall x (List.mem_append_right _ hx)
    · have horder := h.judges.order
      rw [hnil, List.nil_append] at horder ⊢
      apply Docket.insertByKey_order horder
      intro item hitem hkey
      have hlt := drained_before hl h (List.mem_append_right _ hitem) hin
      exact absurd (congrArg (fun k : Key P => (ofLex k).2) hkey) (ne_of_lt hlt)

theorem poll_follows (h : Follows targets s l) : Follows targets (next s .poll) l := by
  simp only [next]
  cases hpop : s.answers.tryPop with
  | none =>
    exact ⟨sends_congr h.sends rfl rfl (Or.inr (Or.inr rfl)),
      judges_congr h.judges rfl rfl rfl rfl rfl rfl rfl rfl rfl rfl rfl,
      replies_congr h.replies rfl rfl rfl rfl⟩
  | some r =>
    obtain ⟨receipt, answers⟩ := r
    refine ⟨sends_congr h.sends rfl rfl (Or.inr (Or.inl rfl)),
      judges_congr h.judges rfl rfl rfl rfl rfl rfl rfl rfl rfl rfl rfl,
      replies_congr h.replies ?_ rfl rfl rfl⟩
    simp only [queue, State.read, BoundedRing.Ring.tryPop_eq_some hpop, List.append_assoc,
      List.cons_append, List.nil_append]

theorem reply_follows (hi : CommandAnswers.Invariant Batch.basis s) (h : Follows targets s l) :
    Follows targets (next s .reply) l := by
  simp only [next]
  cases hr : s.replies with
  | nil => exact h
  | cons receipt rest =>
    have hcard : Multiset.card (inFlight Batch.basis s) ≤ capacity := by
      have := hi.credits
      omega
    obtain ⟨answers, hpush⟩ := BoundedRing.Ring.tryPush_isSome (x := receipt)
      (ring_has_room hcard (by rw [hr]; exact List.cons_ne_nil _ _))
    simp only [hpush]
    refine ⟨sends_congr h.sends rfl rfl (Or.inl rfl),
      judges_congr h.judges rfl rfl rfl rfl rfl rfl rfl rfl rfl rfl rfl,
      replies_congr h.replies ?_ rfl rfl rfl⟩
    simp only [queue, hr, BoundedRing.Ring.tryPush_eq_some hpush, List.append_assoc,
      List.singleton_append]

theorem mapped_answers (sents : List (Sent P)) : List.Forall₂ Answers
    (sents.map fun sent => sent.reject .stale)
    ((sents.map sentEntry).map fun e => (e, false)) := by
  induction sents with
  | nil => exact .nil
  | cons sent rest ih => exact .cons ⟨sent.when, rfl, rfl⟩ ih

theorem drained_timed (h : Follows targets s l) {x : Sent P}
    (hx : x ∈ handSent s.hand ++ s.docket.schedule) : ∃ moment, x.when = .timed moment := by
  obtain ⟨drained, hd, hin⟩ := h.judges.drained
  obtain ⟨y, hy, he⟩ := List.mem_map.mp (hin x hx)
  have hyin : y ∈ s.accepted := by
    rw [hd]
    exact List.mem_append_left _ hy
  obtain ⟨moment, hw⟩ := h.sends.timed y hyin
  have hkey : y.key = x.key := congrArg Entry.key he
  refine ⟨moment, ?_⟩
  rw [← hw]
  exact (congrArg (fun k : Key P => (ofLex k).1) hkey).symm

theorem ring_behind (hl : OrderedExecution.Invariant (base targets) l) (h : Follows targets s l)
    {x sent : Sent P} (hx : x ∈ handSent s.hand ++ s.docket.schedule)
    (hsent : sent ∈ s.commands.items) (hle : x.when ≤ sent.when) : x.key < sent.key := by
  rw [key_lt_iff]
  rcases lt_or_eq_of_le hle with hlt | heq
  · exact Or.inl hlt
  · exact Or.inr ⟨heq, drained_before hl h hx hsent⟩

/-- The walk as a stretch of the schedule missed and what follows it, in hand or not. -/
theorem takeDue_stretch (h : Follows targets s l) {start : P.Clock} {frames : ℕ}
    (hempty : s.hand = .empty)
    (hlate : ∀ receipt ∈ (takeDue s.docket start frames).replies,
      receipt.outcome = .rejected .stale) :
    ∃ missed rest, (takeDue s.docket start frames).replies =
        missed.map (fun sent => sent.reject .stale) ∧
      (∀ sent ∈ missed, s.docket.ledger.isCurrent sent.batch.basis = false) ∧
      s.docket.schedule =
        missed ++ (handSent (takeDue s.docket start frames).hand ++ rest) ∧
      (takeDue s.docket start frames).docket = { s.docket with schedule := rest } ∧
      ∀ deferred, (takeDue s.docket start frames).hand ≠ .deferred deferred := by
  simp only [takeDue] at hlate ⊢
  by_cases hf : frames = 0
  · simp only [if_pos hf]
    exact ⟨[], s.docket.schedule, rfl, by simp, rfl, rfl, fun _ hd => by cases hd⟩
  · simp only [if_neg hf] at hlate ⊢
    obtain ⟨missed, hreplies, hmiss, hend⟩ := walk_stretch hlate
    refine ⟨missed, _, hreplies, hmiss, ?_, rfl, ?_⟩
    · rcases hend with ⟨hh, hitems⟩ | ⟨sent, moment, offset, hh, hwhen, hitems⟩
      · rw [hh]
        exact hitems
      · rw [hh]
        have hin : sent ∈ handSent s.hand ++ s.docket.schedule := by
          rw [hempty, hitems]
          simp [handSent]
        obtain ⟨moment', hw⟩ := drained_timed h hin
        rw [hw] at hwhen
        obtain ⟨rfl, _⟩ := Prod.mk.inj (Option.some.inj hwhen)
        have hsent : handSent (.due (toDue sent moment' offset)) = [sent] := by
          obtain ⟨batch, seq, when⟩ := sent
          obtain rfl : when = .timed moment' := hw
          rfl
        rw [hsent]
        exact hitems
    · rcases hend with ⟨hh, _⟩ | ⟨sent, moment, offset, hh, _⟩
      · rw [hh]
        exact fun _ hd => by cases hd
      · rw [hh]
        exact fun _ hd => by cases hd

/-- The line misses the stretch the walk answers, then holds the batch it hands over. -/
theorem nextDue_follows (hl : OrderedExecution.Invariant (base targets) l)
    (h : Follows targets s l) {start : P.Clock} {frames : ℕ} (hready : s.Ready)
    (ho : Orderly s (.nextDue start frames)) : ∃ l', Steps (base targets) l l' ∧
      Follows targets (next s (.nextDue start frames)) l' := by
  obtain ⟨hlive, hhand, hquiet⟩ := hready
  have hempty := empty_hand hhand
  have hnil := hand_of_empty hhand
  obtain ⟨hlate, hdrain⟩ := ho
  obtain ⟨missed, rest, hreplies, hmiss, hsplit, hdocket, hdue⟩ :=
    takeDue_stretch h hempty hlate
  have horder := h.judges.order
  rw [hnil, List.nil_append, hsplit] at horder
  obtain ⟨hmissed, hafter, hcross⟩ := List.pairwise_append.mp horder
  have hperm : l.waiting.Perm (missed.map sentEntry ++
      (s.commands.items ++ (handSent (takeDue s.docket start frames).hand ++ rest)).map
        sentEntry) := by
    have hwait := h.judges.waiting
    rw [hnil, List.nil_append, hsplit] at hwait
    refine hwait.symm.trans ?_
    rw [← List.map_append]
    exact List.Perm.map sentEntry (List.perm_append_comm_assoc _ _ _)
  have hfirst : ∀ e ∈ missed.map sentEntry, ∀ d ∈
      (s.commands.items ++ (handSent (takeDue s.docket start frames).hand ++ rest)).map sentEntry,
      e.key < d.key := by
    intro e he d hd
    obtain ⟨x, hx, rfl⟩ := List.mem_map.mp he
    obtain ⟨y, hy, rfl⟩ := List.mem_map.mp hd
    rcases List.mem_append.mp hy with hy | hy
    · have hxin : x ∈ s.docket.schedule := by
        rw [hsplit]
        exact List.mem_append_left _ hx
      refine ring_behind hl h (List.mem_append_right _ hxin) hy (hdrain x hxin ?_ y hy)
      rw [hdocket]
      intro hrest
      exact lt_irrefl _ (hcross x hx x (List.mem_append_right _ hrest))
    · exact hcross x hx y hy
  obtain ⟨l', hsteps, hsent, hwaiting, hshifted, hanswers⟩ := OrderedExecution.miss_all _ _ hperm
    (List.pairwise_map.mpr hmissed) hfirst (by
      intro e he
      obtain ⟨x, hx, rfl⟩ := List.mem_map.mp he
      rw [← h.judges.ledger]
      intro hcurrent
      exact absurd (current_view.mp hcurrent) (by rw [hmiss x hx]; exact Bool.false_ne_true))
  refine ⟨l', hsteps, ?_, ⟨?_, ?_, ?_, ?_, ?_, ?_, h.judges.live, ?_⟩, ?_, ?_, ?_⟩
  · obtain ⟨hs₁, hs₂, hs₃, hs₄, hs₅⟩ := h.sends
    exact ⟨hsent.trans hs₁, hs₂, hs₃, hs₄, hs₅⟩
  · show ((s.commands.items ++ (handSent (takeDue s.docket start frames).hand ++
      (takeDue s.docket start frames).docket.schedule)).map sentEntry).Perm _
    rw [hdocket]
    exact hwaiting.symm
  · show view (takeDue s.docket start frames).docket.ledger = _
    rw [hdocket, OrderedExecution.ledger, hshifted]
    exact h.judges.ledger
  · obtain ⟨drained, hd, hin⟩ := h.judges.drained
    refine ⟨drained, hd, fun x hx => hin x ?_⟩
    rw [hnil, hsplit]
    have hx' : x ∈ handSent (takeDue s.docket start frames).hand ++
        (takeDue s.docket start frames).docket.schedule := hx
    rw [hdocket] at hx'
    exact List.mem_append_right _ (List.mem_append_right _ hx')
  · show (handSent (takeDue s.docket start frames).hand ++
      (takeDue s.docket start frames).docket.schedule).Pairwise _
    rw [hdocket]
    exact hafter
  · show (takeDue s.docket start frames).docket.arrived = []
    rw [hdocket]
    exact h.judges.arrived
  · show (takeDue s.docket start frames).docket.parked = []
    rw [hdocket]
    exact h.judges.parked
  · show (s.take (takeDue s.docket start frames)).holdsDeferred = false
    simp only [State.holdsDeferred, State.take]
  · have hqueue : queue (next s (.nextDue start frames)) =
        queue s ++ missed.map (fun sent => sent.reject .stale) := by
      simp only [queue, next, State.take, hreplies, hquiet, List.append_nil]
    rw [hqueue, hanswers]
    exact Forall₂.append h.replies.answers (mapped_answers missed)
  · show ∀ entry ∈ (takeDue s.docket start frames).docket.committed, _
    rw [hdocket, hshifted]
    exact h.replies.committed
  · show ∀ e ∈ l'.shifted, (∃ entry ∈ (takeDue s.docket start frames).docket.committed, _) ∨ _
    rw [hdocket, hshifted, hanswers]
    exact fun e he => (h.replies.owed e he).imp_right fun hm => List.mem_append_left _ hm

theorem held_shifts (hl : OrderedExecution.Invariant (base targets) l) (h : Follows targets s l)
    {held : Due P} (hheld : s.hand = .due held)
    (hcurrent : s.docket.ledger.isCurrent held.basis = true)
    (hahead : ∀ sent ∈ s.commands.items, .timed held.moment ≤ sent.when) :
    Step (base targets) l { l with
      waiting := (s.commands.items ++ s.docket.schedule).map sentEntry
      shifted := l.shifted ++ [entryOf (.timed held.moment) held.seq held.basis] } := by
  have hhand : handSent s.hand =
      [{ batch := held.batch, seq := held.seq, when := .timed held.moment }] := by rw [hheld]; rfl
  have horder := h.judges.order
  rw [hhand] at horder
  have hperm := h.judges.waiting
  rw [hhand] at hperm
  apply Step.shift
  · exact hperm.symm.trans (List.Perm.map sentEntry List.perm_middle)
  · intro d hd
    obtain ⟨y, hy, rfl⟩ := List.mem_map.mp hd
    rcases List.mem_append.mp hy with hy | hy
    · exact ring_behind (x := { batch := held.batch, seq := held.seq, when := .timed held.moment })
        hl h (by rw [hhand]; exact List.mem_cons_self) hy (hahead y hy)
    · exact List.rel_of_pairwise_cons horder hy
  · rw [← h.judges.ledger]
    exact current_view.mpr hcurrent

theorem rejected_leave {l : Line ℕ Mark (Key P)} {d : Docket P} {commands : List (Sent P)}
    (hwaiting : l.waiting = (commands ++ d.schedule).map sentEntry)
    (hledger : view d.ledger = OrderedExecution.ledger (base targets) l) (harrived : d.arrived = [])
    (hparked : d.parked = []) :
    ∃ (l' : Line ℕ Mark (Key P)) (taken : List (Sent P)), Steps (base targets) l l' ∧
      l'.sent = l.sent ∧ l'.shifted = l.shifted ∧
      ((commands ++ (rejectOutdated d).1.schedule).map sentEntry).Perm l'.waiting ∧
      (rejectOutdated d).2 = taken.map (fun sent => sent.reject .stale) ∧
      l'.answers = l.answers ++ (taken.map sentEntry).map fun e => (e, false) := by
  obtain ⟨taken, htaken, hperm, hschedule, harr, hpar⟩ := rejectOutdated_lists d
  rw [harrived] at harr
  rw [hparked] at hpar
  rw [List.sublist_nil.mp harr, List.sublist_nil.mp hpar, harrived, hparked, List.append_nil,
    List.append_nil, List.append_nil, List.append_nil] at hperm
  have hline : l.waiting.Perm (taken.map sentEntry ++
      (commands ++ (rejectOutdated d).1.schedule).map sentEntry) := by
    rw [hwaiting, ← List.map_append]
    apply List.Perm.map sentEntry
    exact (hperm.append_left commands).trans (List.perm_append_comm_assoc _ _ _)
  obtain ⟨l', hsteps, hsent, hwait, hshifted, hanswers⟩ := OrderedExecution.reject_all _ _ hline (by
    intro e he
    obtain ⟨x, hx, rfl⟩ := List.mem_map.mp he
    rw [← hledger]
    apply (outdated_view _).mpr
    have hreply : x.reject .stale ∈ (rejectOutdated d).2 := by
      rw [htaken]
      exact List.mem_map_of_mem hx
    exact ((rejectOutdated_spec d).1 _ hreply).1)
  exact ⟨l', taken, hsteps, hsent, hshifted, hwait.symm, htaken, hanswers⟩

/-- The executor's side after a shift, in the words of the docket it leaves. -/
theorem shifted_judges (h : Follows targets s l) {d : Docket P} {s' : State P capacity}
    {l' : Line ℕ Mark (Key P)} (hcommands : s'.commands = s.commands) (hhand : s'.hand = .empty)
    (haccepted : s'.accepted = s.accepted) (hstage : s'.stage = s.stage)
    (hdocket : s'.docket = (rejectOutdated d).1) (hschedule : d.schedule = s.docket.schedule)
    (harrived : d.arrived = []) (hparked : d.parked = [])
    (hledger : view d.ledger = OrderedExecution.ledger (base targets) l')
    (hwaiting : ((s.commands.items ++ (rejectOutdated d).1.schedule).map sentEntry).Perm
      l'.waiting) : Judges targets s' l' := by
  obtain ⟨_, _, _, hsub, harr, hpar⟩ := rejectOutdated_lists d
  rw [harrived] at harr
  rw [hparked] at hpar
  have hnil : handSent s'.hand = [] := by rw [hhand]; rfl
  refine ⟨?_, ?_, ?_, ?_, ?_, ?_, ?_, ?_⟩
  · rw [hcommands, hnil, List.nil_append, hdocket]
    exact hwaiting
  · rw [hdocket, (rejectOutdated_spec d).2.1]
    exact hledger
  · obtain ⟨drained, hd, hin⟩ := h.judges.drained
    refine ⟨drained, by rw [haccepted, hcommands, hd], fun x hx => hin x ?_⟩
    rw [hnil, List.nil_append, hdocket] at hx
    apply List.mem_append_right
    rw [← hschedule]
    exact hsub.subset hx
  · rw [hnil, List.nil_append, hdocket]
    apply List.Pairwise.sublist hsub
    rw [hschedule]
    exact (List.pairwise_append.mp h.judges.order).2.1
  · rw [hdocket]
    exact List.sublist_nil.mp harr
  · rw [hdocket]
    exact List.sublist_nil.mp hpar
  · rw [hstage]
    exact h.judges.live
  · simp only [State.holdsDeferred, hhand]

theorem held_ledger (h : Follows targets s l) {held : Due P}
    (hcurrent : s.docket.ledger.isCurrent held.basis = true) (l' : Line ℕ Mark (Key P))
    (hshifted : l'.shifted = l.shifted ++ [entryOf (.timed held.moment) held.seq held.basis]) :
    view (s.docket.ledger.record held.basis held.seq) =
      OrderedExecution.ledger (base targets) l' := by
  rw [view_record hcurrent, OrderedExecution.ledger, hshifted, List.map_append, List.foldl_append,
    h.judges.ledger]
  rfl

theorem apply_follows (hl : OrderedExecution.Invariant (base targets) l) (hb : Based s)
    (h : Follows targets s l) {data : P.Applied} (ha : Enabled Batch.basis s (.apply data))
    (ho : Orderly s (.apply data)) : ∃ l', Steps (base targets) l l' ∧
      Follows targets (next s (.apply data)) l' := by
  obtain ⟨held, hheld⟩ := shifts_hold_due ha trivial
  obtain ⟨_, _, hquiet⟩ := ha
  have hcurrent := hb.judged held hheld
  have hshift := held_shifts hl h hheld hcurrent (ho held hheld)
  have hanswer : Step (base targets) _ _ := Step.answer { l with
    waiting := (s.commands.items ++ s.docket.schedule).map sentEntry
    shifted := l.shifted ++ [entryOf (.timed held.moment) held.seq held.basis] }
    (entryOf (.timed held.moment) held.seq held.basis)
    (List.mem_append_right _ List.mem_cons_self)
  have hledger := held_ledger h hcurrent { l with
    waiting := (s.commands.items ++ s.docket.schedule).map sentEntry
    shifted := l.shifted ++ [entryOf (.timed held.moment) held.seq held.basis]
    answers := l.answers ++ [(entryOf (.timed held.moment) held.seq held.basis, true)] } rfl
  obtain ⟨l', taken, hsteps, hsent, hshifted, hwaiting, hreplies, hanswers⟩ := rejected_leave
    (d := { s.docket with ledger := s.docket.ledger.record held.basis held.seq })
    rfl hledger h.judges.arrived h.judges.parked
  have hnext : next s (.apply data) = s.take (held.apply s.docket data) := by
    simp only [next, answerDue, hheld]
  rw [hnext]
  refine ⟨l', (Relation.ReflTransGen.single hshift).tail hanswer |>.trans hsteps, ?_, ?_, ?_, ?_, ?_⟩
  · obtain ⟨hs₁, hs₂, hs₃, hs₄, hs₅⟩ := h.sends
    exact ⟨hsent.trans hs₁, hs₂, hs₃, hs₄, hs₅⟩
  · refine shifted_judges h (d := { s.docket with
        ledger := s.docket.ledger.record held.basis held.seq })
      rfl rfl rfl rfl rfl rfl h.judges.arrived h.judges.parked ?_ hwaiting
    exact held_ledger h hcurrent l' hshifted
  · have hqueue : queue (s.take (held.apply s.docket data)) = queue s ++
        { batch := held.batch, outcome := .applied held.moment data, seq := held.seq } ::
          taken.map (fun sent => sent.reject .stale) := by
      simp only [queue, State.take, Due.apply, hreplies, hquiet, List.append_nil]
    rw [hqueue, hanswers, List.append_assoc]
    exact Forall₂.append h.replies.answers (.cons ⟨_, rfl, rfl, rfl⟩ (mapped_answers taken))
  · intro entry hentry
    have hsame : (s.take (held.apply s.docket data)).docket.committed = s.docket.committed :=
      (rejectOutdated_spec _).2.2
    rw [hsame] at hentry
    rw [hshifted]
    exact List.mem_append_left _ (h.replies.committed entry hentry)
  · intro e he
    have hsame : (s.take (held.apply s.docket data)).docket.committed = s.docket.committed :=
      (rejectOutdated_spec _).2.2
    rw [hsame, hanswers]
    rw [hshifted] at he
    rcases List.mem_append.mp he with he | he
    · refine (h.replies.owed e he).imp_right fun hm => ?_
      exact List.mem_append_left _ (List.mem_append_left _ hm)
    · rw [List.mem_singleton.mp he]
      exact Or.inr (List.mem_append_left _ (List.mem_append_right _ List.mem_cons_self))

theorem commit_follows (hl : OrderedExecution.Invariant (base targets) l) (hb : Based s)
    (h : Follows targets s l) (ha : Enabled Batch.basis s .commit) (ho : Orderly s .commit) :
    ∃ l', Steps (base targets) l l' ∧ Follows targets (next s .commit) l' := by
  obtain ⟨held, hheld⟩ := shifts_hold_due ha trivial
  obtain ⟨_, _, hquiet⟩ := ha
  have hcurrent := hb.judged held hheld
  have hshift := held_shifts hl h hheld hcurrent (ho held hheld)
  have hledger := held_ledger h hcurrent { l with
    waiting := (s.commands.items ++ s.docket.schedule).map sentEntry
    shifted := l.shifted ++ [entryOf (.timed held.moment) held.seq held.basis] } rfl
  obtain ⟨l', taken, hsteps, hsent, hshifted, hwaiting, hreplies, hanswers⟩ := rejected_leave
    (d := { s.docket with
      ledger := s.docket.ledger.record held.basis held.seq
      committed := s.docket.committed ++ [(held.moment,
        { batch := held.batch, seq := held.seq, when := .timed held.moment })] })
    rfl hledger h.judges.arrived h.judges.parked
  have hnext : next s .commit = s.take (held.commit s.docket) := by
    simp only [next, answerDue, hheld]
  have hcommitted : (s.take (held.commit s.docket)).docket.committed =
      s.docket.committed ++ [(held.moment,
        { batch := held.batch, seq := held.seq, when := .timed held.moment })] :=
    (rejectOutdated_spec _).2.2
  rw [hnext]
  refine ⟨l', .head hshift hsteps, ?_, ?_, ?_, ?_, ?_⟩
  · obtain ⟨hs₁, hs₂, hs₃, hs₄, hs₅⟩ := h.sends
    exact ⟨hsent.trans hs₁, hs₂, hs₃, hs₄, hs₅⟩
  · refine shifted_judges h (d := { s.docket with
        ledger := s.docket.ledger.record held.basis held.seq
        committed := s.docket.committed ++ [(held.moment,
          { batch := held.batch, seq := held.seq, when := .timed held.moment })] })
      rfl rfl rfl rfl rfl rfl h.judges.arrived h.judges.parked ?_ hwaiting
    exact held_ledger h hcurrent l' hshifted
  · have hqueue : queue (s.take (held.commit s.docket)) =
        queue s ++ taken.map (fun sent => sent.reject .stale) := by
      simp only [queue, State.take, Due.commit, hreplies, hquiet, List.append_nil]
    rw [hqueue, hanswers]
    exact Forall₂.append h.replies.answers (mapped_answers taken)
  · rw [hcommitted, hshifted]
    intro entry hentry
    rcases List.mem_append.mp hentry with hentry | hentry
    · exact List.mem_append_left _ (h.replies.committed entry hentry)
    · rw [List.mem_singleton.mp hentry]
      exact List.mem_append_right _ List.mem_cons_self
  · rw [hcommitted, hshifted, hanswers]
    intro e he
    rcases List.mem_append.mp he with he | he
    · rcases h.replies.owed e he with ⟨entry, hentry, rfl⟩ | hm
      · exact Or.inl ⟨entry, List.mem_append_left _ hentry, rfl⟩
      · exact Or.inr (List.mem_append_left _ hm)
    · rw [List.mem_singleton.mp he]
      exact Or.inl ⟨_, List.mem_append_right _ List.mem_cons_self, rfl⟩

theorem complete_follows (h : Follows targets s l) {seq : ℕ} {data : P.Applied}
    (hquiet : s.replies = []) : ∃ l', Steps (base targets) l l' ∧
      Follows targets (next s (.complete seq data)) l' := by
  simp only [next, complete]
  cases hs : Extraction.swapExtract (fun entry : P.Clock × Sent P => decide (entry.2.seq = seq))
      s.docket.committed with
  | none =>
    refine ⟨l, .refl, ?_⟩
    have hsame : s.take { docket := s.docket, hand := s.hand, replies := [] } = s := by
      cases s
      simp_all [State.take]
    rw [hsame]
    exact h
  | some r =>
    obtain ⟨entry, rest⟩ := r
    have hperm := (Extraction.swapExtract_spec hs).1
    have hshifted := h.replies.committed entry (hperm.mem_iff.mpr List.mem_cons_self)
    refine ⟨_, .single (Step.answer l (committedEntry entry) hshifted),
      ⟨h.sends.sent, h.sends.fresh, h.sends.timed, h.sends.admitted, h.sends.held⟩,
      judges_congr h.judges rfl rfl rfl rfl rfl rfl rfl rfl rfl rfl rfl, ?_, ?_, ?_⟩
    · have hqueue : queue (s.take { docket := { s.docket with committed := rest }
                                    hand := s.hand
                                    replies := [{ batch := entry.2.batch
                                                  outcome := .applied entry.1 data
                                                  seq := entry.2.seq }] }) =
          queue s ++ [{ batch := entry.2.batch, outcome := .applied entry.1 data
                        seq := entry.2.seq }] := by
        simp only [queue, State.take, hquiet, List.append_nil]
      rw [hqueue]
      exact Forall₂.append h.replies.answers (.cons ⟨_, rfl, rfl, rfl⟩ .nil)
    · exact fun other hother =>
        h.replies.committed other (hperm.mem_iff.mpr (List.mem_cons_of_mem _ hother))
    · intro e he
      rcases h.replies.owed e he with ⟨other, hother, rfl⟩ | hm
      · rcases List.mem_cons.mp (hperm.mem_iff.mp hother) with rfl | hother
        · exact Or.inr (List.mem_append_right _ List.mem_cons_self)
        · exact Or.inl ⟨other, hother, rfl⟩
      · exact Or.inr (List.mem_append_left _ hm)

theorem editHand_follows (h : Follows targets s l) (edit : List P.Command → List P.Command) :
    Follows targets (next s (.editHand edit)) l := by
  refine ⟨sends_congr h.sends rfl rfl (Or.inl rfl), judges_congr h.judges rfl ?_ ?_ rfl rfl rfl rfl
    rfl rfl rfl rfl, replies_congr h.replies rfl rfl rfl rfl⟩
  · show (handSent (editHand edit s.hand)).map sentEntry = _
    cases s.hand <;> rfl
  · simp only [next, State.holdsDeferred]
    cases s.hand <;> rfl

theorem editCommitted_follows (h : Follows targets s l) (seq : ℕ)
    (edit : List P.Command → List P.Command) :
    Follows targets (next s (.editCommitted seq edit)) l := by
  refine ⟨sends_congr h.sends rfl rfl (Or.inl rfl), judges_congr h.judges rfl rfl rfl rfl rfl rfl rfl
    rfl rfl rfl rfl, replies_congr h.replies rfl ?_ rfl rfl⟩
  show (editCommitted.editFirst seq edit s.docket.committed).map committedEntry = _
  induction s.docket.committed with
  | nil => rfl
  | cons entry rest ih =>
    simp only [editCommitted.editFirst]
    split
    · rfl
    · rw [List.map_cons, List.map_cons, ih]

theorem next_follows (hi : CommandAnswers.Invariant Batch.basis s) (hb : Based s)
    (hl : OrderedExecution.Invariant (base targets) l) (h : Follows targets s l) {a : Action P}
    (ha : Enabled Batch.basis s a) (ho : Orderly s a) :
    ∃ l', Steps (base targets) l l' ∧ Follows targets (next s a) l' := by
  have quiet {t : Turn P} (hready : s.Ready) (hdocket : t.docket = s.docket)
      (hhand : t.hand = .empty) (hreplies : t.replies = []) : s.take t = s := by
    obtain ⟨_, hempty, hnone⟩ := hready
    have := empty_hand hempty
    cases s
    simp_all [State.take]
  cases a with
  | enter when batch =>
    refine ⟨l, .refl, ?_⟩
    simp only [next]
    split
    · exact h
    · refine ⟨⟨h.sends.sent, h.sends.fresh, h.sends.timed, ?_, fun hheld => by cases hheld⟩,
        judges_congr h.judges rfl rfl rfl rfl rfl rfl rfl rfl rfl rfl rfl,
        replies_congr h.replies rfl rfl rfl rfl⟩
      intro when' batch' hadmitted
      obtain ⟨rfl, _⟩ := SenderPhase.admitted.inj hadmitted
      exact ho
  | push => exact push_follows hl h ho
  | poll => exact ⟨l, .refl, poll_follows h⟩
  | checkHeld =>
    refine ⟨l, .refl, sends_congr h.sends rfl rfl (Or.inr (Or.inl ?_)),
      judges_congr h.judges rfl rfl rfl rfl rfl rfl rfl rfl rfl rfl rfl,
      replies_congr h.replies rfl rfl rfl rfl⟩
    show (if s.stage = .gone then SenderPhase.orphaning else .idle) = .idle
    rw [h.judges.live]
    rfl
  | popOrphan => exact absurd ha h.sends.held
  | drain => exact ⟨l, .refl, drain_follows hl h ha.2.1⟩
  | nextDue start frames => exact nextDue_follows hl h ha ho
  | nextDeferred =>
    refine ⟨l, .refl, ?_⟩
    have hturn : takeDeferred s.docket = { docket := s.docket, hand := .empty, replies := [] } := by
      simp only [takeDeferred, h.judges.arrived]
    simp only [next, hturn]
    rw [quiet ha rfl rfl rfl]
    exact h
  | resume seq start moment =>
    refine ⟨l, .refl, ?_⟩
    have hturn : takeParked s.docket seq start moment =
        { docket := s.docket, hand := .empty, replies := [] } := by
      simp only [takeParked, h.judges.parked, Extraction.swapExtract]
    simp only [next, hturn]
    rw [quiet ha rfl rfl rfl]
    exact h
  | complete seq data => exact complete_follows h ha.2.2
  | refuseTimed refusal => exact ho.elim
  | apply data => exact apply_follows hl hb h ha ho
  | refuse refusal => exact ho.elim
  | defer => exact ho.elim
  | commit => exact commit_follows hl hb h ha ho
  | park =>
    have hheld := ha.2.1
    rw [h.judges.due] at hheld
    cases hheld
  | drop => exact ho.elim
  | editHand edit => exact ⟨l, .refl, editHand_follows h edit⟩
  | editCommitted seq edit => exact ⟨l, .refl, editCommitted_follows h seq edit⟩
  | reply => exact ⟨l, .refl, reply_follows hi h⟩
  | close => exact ho.elim
  | unanswer =>
    have hstage := ha.1
    rw [h.judges.live] at hstage
    cases hstage
  | releaseCommands =>
    have hstage := ha.1
    rw [h.judges.live] at hstage
    cases hstage
  | releaseAnswers =>
    have hstage : s.stage = .unread := ha
    rw [h.judges.live] at hstage
    cases hstage

end CommandSimulation

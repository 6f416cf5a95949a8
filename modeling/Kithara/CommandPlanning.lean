import Kithara.CommandProjection

/-! When the sender may plan on its projection. The projection agrees for a whole run exactly
when every receipt is read evenly, and a batch planned on one that agrees is answered Stale only
through batches sent after it. -/
namespace CommandPlanning

open CommandProtocol CommandDocket CommandLevel CommandChannel CommandAnswers CommandBasis
open CommandSimulation CommandProjection
open BasisReplay (Current Change)
open OrderedExecution (Entry Line Step Steps)
open OrderedProjection (Read Slice Uniform unread Passed InOrder)
open TransitionSystem

variable {P : Protocol} {capacity : ℕ}

/-- No batch that shifted the ledger unread is shown past on one of its targets and not on
another. -/
def EvenlyRead (s : State P capacity) : Prop :=
  ∀ batch ∈ shiftedUnread s, ∀ x ∈ batch.2, ∀ y ∈ batch.2,
    ShownPast s batch.1 (P.index x.1) → ShownPast s batch.1 (P.index y.1)

variable {targets : ℕ} {s : State P capacity} {l : Line ℕ Mark (Key P)}

theorem shownPast_iff {seq index : ℕ} : ShownPast s seq index ↔
    mark (some (some seq)) < view ⟨s.sender.book.applied⟩ index := by
  simp only [view, mark_lt, Option.some.injEq, forall_eq', ShownPast]

theorem accepted_nodup (hl : OrderedExecution.Invariant (base targets) l)
    (hf : Follows targets s l) : (s.accepted.map Sent.seq).Nodup := by
  have hstamps := hl.stamps
  rw [hf.sends.sent] at hstamps
  have hseqs := (List.pairwise_map (f := sentEntry)
    (R := fun a b : Entry ℕ Mark (Key P) => a.stamp < b.stamp)).mp hstamps
  apply List.pairwise_map.mpr
  exact hseqs.imp fun hlt => (mark_stamp_lt.mp hlt).ne

theorem flight_unread (h : Tracks targets s l) {tag : ℕ × List (P.Target × Option ℕ)}
    (htag : tag ∈ inFlight Batch.basis s) : ∀ receipt ∈ s.answered, receipt.seq ≠ tag.1 := by
  intro receipt hreceipt heq
  have hnodup := accepted_nodup h.line h.follows
  have hseqs : (s.accepted.map Sent.seq : Multiset ℕ) =
      (inFlight Batch.basis s).map Prod.fst + (s.answered.map Receipt.seq : Multiset ℕ) := by
    have hconserved := congrArg (Multiset.map Prod.fst) h.invariant.conserved
    simp only [Multiset.map_add, Multiset.map_coe, List.map_map] at hconserved
    exact hconserved
  rw [← Multiset.coe_nodup, hseqs, Multiset.nodup_add] at hnodup
  apply Multiset.disjoint_left.mp hnodup.2.2 (Multiset.mem_map_of_mem Prod.fst htag)
  rw [← heq]
  exact Multiset.mem_coe.mpr (List.mem_map_of_mem hreceipt)

theorem read_stamps (h : Follows targets s l) :
    (l.answers.take s.answered.length).map (fun a => a.1.stamp) =
      s.answered.map fun receipt => mark (some (some receipt.seq)) := by
  have hread := List.forall₂_take s.answered.length h.replies.answers
  have htake : (queue s).take s.answered.length = s.answered := by
    simp only [queue, List.append_assoc, List.take_left]
  rw [htake] at hread
  symm
  rw [← List.forall₂_eq_eq_eq, List.forall₂_map_left_iff, List.forall₂_map_right_iff]
  apply hread.imp
  rintro receipt answer ⟨when, he, _⟩
  rw [he]
  rfl

theorem unread_entry (h : Follows targets s l) {when : When P.Clock} {seq : ℕ}
    {basis : List (P.Target × Option ℕ)} :
    unread l s.answered.length (entryOf when seq basis).toChange = true ↔
      (∀ receipt ∈ s.answered, receipt.seq ≠ seq) ∧ basis ≠ [] := by
  simp only [unread, read_stamps h, decide_eq_true_eq, Bool.decide_and, Bool.and_eq_true]
  simp [entryOf, change, mark]

theorem applied_answer {receipt : Receipt P} {answer : Entry ℕ Mark (Key P) × Bool}
    (ha : Answers receipt answer) : (∃ moment, appliedAt receipt = some moment ∧
      answer = (entryOf (.timed moment) receipt.seq receipt.batch.basis, true)) ∨
    appliedAt receipt = none ∧ answer.2 = false := by
  obtain ⟨e, took⟩ := answer
  obtain ⟨when, he, htook⟩ := ha
  cases ho : receipt.outcome with
  | applied moment data =>
    rw [ho] at htook
    obtain ⟨rfl, rfl⟩ := htook
    exact Or.inl ⟨moment, by simp only [appliedAt, ho], Prod.ext he rfl⟩
  | rejected rejection =>
    rw [ho] at htook
    cases rejection with
    | stale => exact Or.inr ⟨by simp only [appliedAt, ho], htook⟩
    | late => exact htook.elim
    | refused refusal => exact htook.elim
    | unanswered => exact htook.elim

theorem shiftedUnread_spec (hl : OrderedExecution.Invariant (base targets) l)
    (h : Follows targets s l) {batch : ℕ × List (P.Target × Option ℕ)}
    (hb : batch ∈ shiftedUnread s) : batch ∈ inFlight Batch.basis s ∧
      ∃ when, entryOf when batch.1 batch.2 ∈ l.shifted := by
  rcases List.mem_append.mp hb with hcommitted | hreceipt
  · obtain ⟨entry, hentry, rfl⟩ := List.mem_map.mp hcommitted
    refine ⟨?_, .timed entry.1, h.replies.committed entry hentry⟩
    have hcontent : entry.2.tag Batch.basis ∈ s.docket.content Batch.basis := by
      apply Multiset.mem_add.mpr
      exact Or.inr (Multiset.mem_coe.mpr (List.mem_map.mpr ⟨entry, hentry, rfl⟩))
    simp only [inFlight, Multiset.mem_add]
    exact Or.inl (Or.inl (Or.inl (Or.inr hcontent)))
  · obtain ⟨receipt, hin, happlied⟩ := List.mem_filterMap.mp hreceipt
    obtain ⟨moment, hmoment, rfl⟩ := Option.map_eq_some_iff.mp happlied
    refine ⟨?_, .timed moment, ?_⟩
    · simp only [inFlight, Multiset.mem_add, Multiset.mem_coe]
      rcases List.mem_append.mp hin with hanswers | hreplies
      · exact Or.inr (List.mem_map_of_mem hanswers)
      · exact Or.inl (Or.inr (List.mem_map_of_mem hreplies))
    · have hqueue : receipt ∈ queue s := by
        simp only [queue, List.append_assoc]
        exact List.mem_append_right _ hin
      obtain ⟨answer, hanswer, ha⟩ := Forall₂.mem_right h.replies.answers.flip hqueue
      rcases applied_answer ha with ⟨m, hm, rfl⟩ | ⟨hnone, _⟩
      · obtain rfl := Option.some.inj (hm.symm.trans hmoment)
        exact hl.applied _ hanswer
      · exact absurd (hnone.symm.trans hmoment) (Option.some_ne_none moment).symm

theorem mem_shiftedUnread (h : Follows targets s l) {e : Entry ℕ Mark (Key P)}
    (he : e ∈ l.shifted) (hu : unread l s.answered.length e.toChange = true) :
    ∃ batch ∈ shiftedUnread s, ∃ when, e = entryOf when batch.1 batch.2 := by
  rcases h.replies.owed e he with ⟨entry, hentry, rfl⟩ | hanswer
  · refine ⟨(entry.2.seq, entry.2.batch.basis), ?_, .timed entry.1, rfl⟩
    apply List.mem_append_left
    exact List.mem_map.mpr ⟨entry, hentry, rfl⟩
  · obtain ⟨receipt, hqueue, ha⟩ := Forall₂.mem_right h.replies.answers hanswer
    rcases applied_answer ha with ⟨moment, hm, heq⟩ | ⟨_, hfalse⟩
    · obtain ⟨rfl, _⟩ := Prod.mk.inj heq
      refine ⟨(receipt.seq, receipt.batch.basis), ?_, .timed moment, rfl⟩
      apply List.mem_append_right
      refine List.mem_filterMap.mpr ⟨receipt, ?_, by rw [hm]; rfl⟩
      simp only [queue, List.append_assoc] at hqueue
      rcases List.mem_append.mp hqueue with hread | hin
      · exact absurd rfl ((unread_entry h).mp hu |>.1 receipt hread)
      · exact hin
    · cases hfalse

theorem uniform_iff_evenlyRead (h : Tracks targets s l) :
    Uniform l s.answered.length ↔ EvenlyRead s := by
  have named {when : When P.Clock} {seq t : ℕ} {basis : List (P.Target × Option ℕ)} :
      t ∈ (entryOf when seq basis).names ↔ ∃ x ∈ basis, P.index x.1 = t := by
    simp only [entryOf, mem_names_change, List.any_eq_true, decide_eq_true_eq]
  have passed {when : When P.Clock} {seq : ℕ} {basis : List (P.Target × Option ℕ)}
      (he : entryOf when seq basis ∈ l.shifted) {x : P.Target × Option ℕ} (hx : x ∈ basis) :
      Passed l s.answered.length (entryOf when seq basis) (P.index x.1) ↔
        ShownPast s seq (P.index x.1) := by
    rw [OrderedProjection.passed_iff h.line h.accounts.read he (named.mpr ⟨x, hx, rfl⟩),
      shownPast_iff]
    rfl
  constructor
  · intro huniform batch hb x hx y hy hpast
    obtain ⟨hflight, when, he⟩ := shiftedUnread_spec h.line h.follows hb
    apply (passed he hy).mp
    apply huniform _ he _ _ (named.mpr ⟨x, hx, rfl⟩) _ (named.mpr ⟨y, hy, rfl⟩)
    · exact (passed he hx).mpr hpast
    · exact (unread_entry h.follows).mpr ⟨flight_unread h hflight, List.ne_nil_of_mem hx⟩
  · intro heven e he hu t ht u hu' hpast
    obtain ⟨batch, hb, when, rfl⟩ := mem_shiftedUnread h.follows he hu
    obtain ⟨x, hx, rfl⟩ := named.mp ht
    obtain ⟨y, hy, rfl⟩ := named.mp hu'
    apply (passed he hy).mpr
    exact heven batch hb x hx y hy ((passed he hx).mp hpast)

theorem agrees_iff_evenlyRead (h : Tracks targets s l) : Agrees s ↔ EvenlyRead s :=
  (agrees_iff_uniform h).trans (uniform_iff_evenlyRead h)

/-- After one receipt more, a batch is shown past on a target of the level by what was shown
before or by that receipt. -/
theorem shownPast_poll (h : Accounts targets s l) {receipt : Receipt P}
    {answers : BoundedRing.Ring (Receipt P) capacity}
    (hpop : s.answers.tryPop = some (receipt, answers)) {seq index : ℕ} (hrange : index < targets) :
    ShownPast (next s .poll) seq index ↔ PastWith s receipt seq index := by
  have hbook : (next s .poll).sender.book = s.sender.book.settle receipt := by
    simp only [next, hpop]
    rfl
  rw [shownPast_iff, hbook, PastWith, shownPast_iff]
  cases ho : receipt.outcome with
  | rejected rejection =>
    have hsettled : (s.sender.book.settle receipt).applied = s.sender.book.applied := by
      simp only [Book.settle, ho]
    simp [hsettled, appliedAt, ho]
  | applied moment data =>
    have hsettled : (s.sender.book.settle receipt).applied =
        (receipt.batch.basis.map fun entry => P.index entry.1).foldl (settleOne receipt.seq)
          s.sender.book.applied := by
      simp only [Book.settle, ho, List.foldl_map]
      rfl
    have hview := (settle_view receipt.seq (receipt.batch.basis.map fun entry => P.index entry.1)
      s.sender.book.applied).2 index
    have hnames : index ∈ (receipt.batch.basis.map fun entry => P.index entry.1) ↔
        ∃ entry ∈ receipt.batch.basis, P.index entry.1 = index := List.mem_map
    have hin : index < s.sender.book.applied.length := h.length ▸ hrange
    simp only [hsettled, hview, hin, and_true, hnames, appliedAt, ho, Option.isSome_some, true_and]
    split
    · rename_i hname
      simp only [lt_max_iff, mark_stamp_lt, hname, true_and]
    · rename_i hname
      simp only [hname, false_and, or_false]

theorem poll_agrees (h : Tracks targets s l) (hs : Agrees s) (ha : orderly.Enabled s .poll) :
    Agrees (next s .poll) ↔ ReadsEvenly s .poll := by
  have htracks := poll_tracks h ha.1
  rw [agrees_iff_evenlyRead htracks]
  cases hpop : s.answers.tryPop with
  | none =>
    have heven := (agrees_iff_evenlyRead h).mp hs
    have hnext : next s .poll = { s with phase := .emptied } := by simp only [next, hpop]
    rw [hnext]
    refine ⟨fun _ receipt answers hsome => ?_, fun _ => heven⟩
    exact absurd (hpop.symm.trans hsome) (Option.some_ne_none _).symm
  | some r =>
    obtain ⟨receipt, answers⟩ := r
    have hnext : next s .poll = { s with answers := answers }.read receipt := by
      simp only [next, hpop]
    have hunread : shiftedUnread (next s .poll) = shiftedUnread { s with answers := answers } := by
      rw [hnext]
      rfl
    have inRange {batch : ℕ × List (P.Target × Option ℕ)}
        (hb : batch ∈ shiftedUnread (next s .poll)) {x : P.Target × Option ℕ} (hx : x ∈ batch.2) :
        P.index x.1 < targets := by
      obtain ⟨_, when, he⟩ := shiftedUnread_spec htracks.line htracks.follows hb
      apply shifted_in_range h.line h.follows he
      apply mem_names_change.mpr
      exact List.any_eq_true.mpr ⟨x, hx, decide_eq_true rfl⟩
    have hpast {seq index : ℕ} (hrange : index < targets) :
        ShownPast (next s .poll) seq index ↔ PastWith s receipt seq index :=
      shownPast_poll h.accounts hpop hrange
    constructor
    · intro heven receipt' answers' hsome batch hb x hx y hy hx'
      obtain ⟨rfl, rfl⟩ := Prod.mk.inj (Option.some.inj (hpop.symm.trans hsome))
      rw [← hunread] at hb
      apply (hpast (inRange hb hy)).mp
      exact heven batch hb x hx y hy ((hpast (inRange hb hx)).mpr hx')
    · intro hreads batch hb x hx y hy hx'
      apply (hpast (inRange hb hy)).mpr
      rw [hunread] at hb
      refine hreads receipt answers hpop batch hb x hx y hy ?_
      exact (hpast (inRange (hunread ▸ hb) hx)).mp hx'

theorem answered_kept (h : Tracks targets s l) {a : Action P} (ha : orderly.Enabled s a)
    (hpoll : a ≠ .poll) : (next s a).answered = s.answered := by
  by_cases hpush : a = .push
  · subst hpush
    rcases push_step Batch.basis s with hm | ⟨sent, _, hs⟩
    · exact hm.answered
    · exact hs.answered
  · exact (next_moves h ha hpush hpoll).answered

theorem next_agrees (h : Tracks targets s l) (hs : Agrees s) {a : Action P}
    (ha : orderly.Enabled s a) : Agrees (next s a) ↔ ReadsEvenly s a := by
  by_cases hpoll : a = .poll
  · subst hpoll
    exact poll_agrees h hs ha
  · have hreads : ReadsEvenly s a := by
      cases a with
      | poll => exact absurd rfl hpoll
      | _ => trivial
    refine iff_of_true ?_ hreads
    obtain ⟨l', hsteps, htracks, _⟩ := next_tracks h ha
    rw [agrees_iff_uniform htracks, answered_kept h ha hpoll]
    apply OrderedProjection.steps_uniform h.line (answers_length h.follows) _ hsteps
    exact (agrees_iff_uniform h).mp hs

def Sending (allowed : When P.Clock → Prop) (s : State P capacity) : Action P → Prop
  | .push => ∀ when batch, s.phase = .admitted when batch → allowed when
  | _ => True

theorem accepted_grows (h : Tracks targets s l) {a : Action P} (ha : orderly.Enabled s a)
    {allowed : When P.Clock → Prop} (hs : Sending allowed s a) :
    ∃ more, (next s a).accepted = s.accepted ++ more ∧ ∀ sent ∈ more, allowed sent.when := by
  have same (heq : (next s a).accepted = s.accepted) :
      ∃ more, (next s a).accepted = s.accepted ++ more ∧ ∀ sent ∈ more, allowed sent.when :=
    ⟨[], by rw [heq, List.append_nil], fun sent hsent => absurd hsent List.not_mem_nil⟩
  by_cases hpush : a = .push
  · subst hpush
    rcases push_step Batch.basis s with hm | ⟨sent, hphase, hsent⟩
    · exact same hm.accepted
    · refine ⟨[sent], hsent.accepted, fun x hx => ?_⟩
      rw [List.mem_singleton.mp hx]
      exact hs sent.when sent.batch hphase
  · by_cases hpoll : a = .poll
    · subst hpoll
      rcases poll_step Batch.basis s with hm | ⟨receipt, hr⟩
      · exact same hm.accepted
      · exact same hr.accepted
    · exact same (next_moves h ha hpush hpoll).accepted

theorem run_tracks {allowed : When P.Clock → Prop} {as : List (Action P)}
    (h : Tracks targets s l) (hv : orderly.ValidTrace s as)
    (hs : orderly.Along (Sending allowed) s as) :
    ∃ l' more, Steps (base targets) l l' ∧ Tracks targets (orderly.runTrace s as) l' ∧
      (orderly.runTrace s as).accepted = s.accepted ++ more ∧ ∀ sent ∈ more, allowed sent.when := by
  induction as generalizing s l with
  | nil => exact ⟨l, [], .refl, h, (List.append_nil _).symm, by simp⟩
  | cons a as ih =>
    obtain ⟨l₁, hsteps₁, h₁, _⟩ := next_tracks h hv.1
    obtain ⟨first, hfirst, hall₁⟩ := accepted_grows h hv.1 hs.1
    obtain ⟨l₂, rest, hsteps₂, h₂, hrest, hall₂⟩ := ih h₁ hv.2 hs.2
    refine ⟨l₂, first ++ rest, hsteps₁.trans hsteps₂, h₂, ?_, ?_⟩
    · have hnext : orderly.next s a = next s a := rfl
      rw [runTrace_cons, hnext, hrest, hfirst, List.append_assoc]
    · intro sent hsent
      exact (List.mem_append.mp hsent).elim (hall₁ sent) (hall₂ sent)

theorem view_injective {a b : Ledger} (h : view a = view b) : a = b := by
  obtain ⟨a⟩ := a
  obtain ⟨b⟩ := b
  congr 1
  apply List.ext_getElem?
  intro t
  exact mark_injective (congrFun h t)

theorem ran_foreseen {s' : State P capacity} {l' : Line ℕ Mark (Key P)}
    (h : Tracks targets s l) (h' : Tracks targets s' l') (hsteps : Steps (base targets) l l')
    (hsent : s'.accepted = s.accepted) {w : P.Clock} (hw : ∀ moment ∈ executed s', moment ≤ w)
    (hrun : ∀ sent ∈ toRun s', ¬ sent.when ≤ .timed w) : s'.docket.ledger = onceRun s w := by
  have hbelow := shifted_upTo h'.follows hw
  obtain ⟨H, hslice, hH⟩ := slice_upTo h.line h.follows fun e he =>
    hbelow e ((OrderedProjection.steps_shifted hsteps).subset he)
  obtain ⟨H', hslice', hH'⟩ := slice_upTo h'.line h'.follows hbelow
  have hsame : H' = H := by
    apply OrderedProjection.inOrder_ext hslice'.order hslice.order
    intro e
    rw [hH, hH', h.follows.sends.sent, h'.follows.sends.sent, hsent]
  have hnone : ((toRun s').filter fun sent => sent.when ≤ .timed w) = [] :=
    List.filter_eq_nil_iff.mpr fun sent hin hle => hrun sent hin (of_decide_eq_true hle)
  apply view_injective
  rw [onceRun_view, h'.follows.judges.ledger, h.follows.judges.ledger]
  have hforeseen := OrderedProjection.replay_sent h.line hslice
  have hran := OrderedProjection.replay_sent h'.line hslice'
  rw [hsame, hforeseen, hnone] at hran
  exact hran.symm

theorem before_iff {w : P.Clock} {seq : ℕ} {sent : Sent P} (h : sent.seq < seq) :
    toLex (sent.when, sent.seq) < toLex ((When.timed w : When P.Clock), seq) ↔
      sent.when ≤ .timed w := by
  rw [Prod.Lex.toLex_lt_toLex, le_iff_lt_or_eq]
  simp only [h, and_true]

/-- A batch planned on the ledger foreseen at its moment, and sent, misses only what is sent
after it. -/
theorem planned_current {l' : Line ℕ Mark (Key P)} {w : P.Clock}
    {seq : ℕ} {basis : List (P.Target × Option ℕ)} {more : List (Sent P)}
    (h : Tracks targets s l) (h' : OrderedExecution.Invariant (base targets) l')
    (hw : ∀ moment ∈ executed s, moment ≤ w) (hfresh : ∀ sent ∈ s.accepted, sent.seq < seq)
    (hplan : Current (view (onceRun s w)) (change seq basis))
    (hsent : l'.sent = l.sent ++ entryOf (.timed w) seq basis :: more.map sentEntry)
    (hmore : ∀ sent ∈ more, .timed w ≤ sent.when) :
    (entryOf (.timed w) seq basis, false) ∉ l'.answers := by
  intro hmissed
  obtain ⟨H, hslice, hH⟩ := slice_upTo h.line h.follows (shifted_upTo h.follows hw)
  refine OrderedProjection.missed_not_current h' hmissed hslice.order ?_ ?_
  · have old {e : Entry ℕ Mark (Key P)} (he : e ∈ l.sent) :
        e.key < (entryOf (.timed w) seq basis).key ↔ (ofLex e.key).1 ≤ .timed w := by
      rw [h.follows.sends.sent] at he
      obtain ⟨sent, hin, rfl⟩ := List.mem_map.mp he
      exact before_iff (hfresh sent hin)
    have hstamps := h'.stamps
    rw [hsent] at hstamps
    have hlater := (List.pairwise_cons.mp (List.pairwise_append.mp hstamps).2.1).1
    intro e
    rw [hH, hsent, List.mem_append, List.mem_cons]
    constructor
    · rintro ⟨he, hle⟩
      exact ⟨Or.inl he, (old he).mpr hle⟩
    · rintro ⟨he | rfl | he, hlt⟩
      · exact ⟨he, (old he).mp hlt⟩
      · exact absurd hlt (lt_irrefl _)
      · -- A batch sent later stands later: its moment is no earlier and its number is greater.
        obtain ⟨sent, hin, rfl⟩ := List.mem_map.mp he
        have hseq : seq < sent.seq := mark_stamp_lt.mp (hlater _ he)
        rcases Prod.Lex.toLex_lt_toLex.mp hlt with hwhen | ⟨_, hnum⟩
        · exact absurd hwhen (not_lt.mpr (hmore sent hin))
        · exact absurd hnum (not_lt.mpr hseq.le)
  · rw [OrderedProjection.replay_sent h.line hslice, ← h.follows.judges.ledger, ← onceRun_view]
    exact hplan

theorem plan_current (h : Tracks targets s l) (hs : Agrees s) {w : P.Clock}
    (hw : ∀ moment ∈ executed s, moment ≤ w) {seq : ℕ} {basis : List (P.Target × Option ℕ)}
    (hplan : ∀ entry ∈ basis, P.index entry.1 < targets ∧
      entry.2 = s.sender.book.basis entry.1 (.timed w)) :
    Current (view (onceRun s w)) (change seq basis) := by
  intro named hnamed
  obtain ⟨entry, hentry, rfl⟩ := List.mem_map.mp hnamed
  obtain ⟨hrange, heq⟩ := hplan entry hentry
  have hin : P.index entry.1 < (onceRun s w).last.length := by
    rw [onceRun, runOne_length, ledger_length h.line h.follows]
    exact hrange
  have hlast := hs entry.1 w hw
  rw [List.getElem?_eq_getElem hin, Option.join_some] at hlast
  simp only [view, List.getElem?_eq_getElem hin, heq, hlast]

/-- What the projection is worth to a run of the level from `s`. -/
structure Projects (targets : ℕ) (s : State P capacity) (as : List (Action P)) : Prop where
  agrees : orderly.Throughout Agrees s as ↔ orderly.Along ReadsEvenly s as
  /-- The ledger foreseen is the executor's, once all sent up to the moment is run. -/
  foreseen : ∀ bs cs w, as = bs ++ cs →
    orderly.Along (Sending fun _ => False) (orderly.runTrace s bs) cs →
    (∀ moment ∈ executed (orderly.runTrace s as), moment ≤ w) →
    (∀ sent ∈ toRun (orderly.runTrace s as), ¬ sent.when ≤ .timed w) →
    (orderly.runTrace s as).docket.ledger = onceRun (orderly.runTrace s bs) w
  /-- A batch planned where the book agrees is answered Stale only through batches sent later
  at an earlier moment. -/
  planned : ∀ bs cs w batch, as = bs ++ .push :: cs → Agrees (orderly.runTrace s bs) →
    (orderly.runTrace s bs).phase = .admitted (.timed w) batch →
    (∀ entry ∈ batch.basis, P.index entry.1 < targets ∧
      entry.2 = (orderly.runTrace s bs).sender.book.basis entry.1 (.timed w)) →
    (orderly.runTrace s (bs ++ [.push])).accepted ≠ (orderly.runTrace s bs).accepted →
    orderly.Along (Sending fun when => .timed w ≤ when) (orderly.runTrace s (bs ++ [.push])) cs →
    ∀ receipt ∈ queue (orderly.runTrace s as),
      receipt.seq = (orderly.runTrace s bs).sender.next → receipt.outcome ≠ .rejected .stale

theorem start_agrees (targets : ℕ) : Agrees (start targets : State P capacity) := by
  apply (agrees_iff_evenlyRead (start_tracks targets)).mpr
  intro batch hb
  exact absurd hb List.not_mem_nil

theorem reaches_tracks {as : List (Action P)} (h : Tracks targets s l)
    (hv : orderly.ValidTrace s as) : ∃ l', Tracks targets (orderly.runTrace s as) l' := by
  apply trace_invariant (I := fun s => ∃ l, Tracks targets s l) (G := fun _ _ => True) _ ⟨l, h⟩ hv
    (along_trivial _ _)
  rintro s a ⟨l, h⟩ ha _
  obtain ⟨l', _, h', _⟩ := next_tracks h ha
  exact ⟨l', h'⟩

/-- A planned batch, sent and followed by batches at no earlier moment, is not answered Stale. -/
theorem planned_unmissed (h : Tracks targets s l) (hs : Agrees s) {w : P.Clock} {batch : Batch P}
    (hphase : s.phase = .admitted (.timed w) batch) (ha : orderly.Enabled s .push)
    (hplan : ∀ entry ∈ batch.basis, P.index entry.1 < targets ∧
      entry.2 = s.sender.book.basis entry.1 (.timed w))
    (hsent : (next s .push).accepted ≠ s.accepted) {cs : List (Action P)}
    (hv : orderly.ValidTrace (next s .push) cs)
    (hc : orderly.Along (Sending fun when => .timed w ≤ when) (next s .push) cs) :
    ∀ receipt ∈ queue (orderly.runTrace (next s .push) cs), receipt.seq = s.sender.next →
      receipt.outcome ≠ .rejected .stale := by
  have hw : ∀ moment ∈ executed s, moment ≤ w := fun moment hmoment =>
    timed_le.mp (ha.2.2.2 _ _ hphase moment hmoment)
  obtain ⟨sent, hadmitted, haccepts⟩ : ∃ sent, s.phase = .admitted sent.when sent.batch ∧
      Accepts Batch.basis s (next s .push) sent := by
    rcases push_step Batch.basis s with hm | hs
    · exact absurd hm.accepted hsent
    · exact hs
  obtain ⟨hwhen, hbatch⟩ := SenderPhase.admitted.inj (hphase.symm.trans hadmitted)
  obtain ⟨l₁, _, h₁, _⟩ := next_tracks h ha
  obtain ⟨l₂, more, _, h₂, hmore, hall⟩ := run_tracks h₁ hv hc
  have hline : l₂.sent = l.sent ++
      entryOf (.timed w) s.sender.next batch.basis :: more.map sentEntry := by
    rw [h₂.follows.sends.sent, hmore, haccepts.accepted, h.follows.sends.sent, List.append_assoc,
      List.map_append, List.singleton_append, List.map_cons, sentEntry, ← hwhen, ← hbatch,
      haccepts.seq]
  intro receipt hreceipt hseq hstale
  obtain ⟨⟨e, took⟩, hanswer, ha⟩ := Forall₂.mem_right h₂.follows.replies.answers.flip hreceipt
  have htook : took = false := by
    rcases applied_answer ha with ⟨moment, hm, _⟩ | ⟨_, hfalse⟩
    · simp [appliedAt, hstale] at hm
    · exact hfalse
  subst htook
  have hsame : e = entryOf (.timed w) s.sender.next batch.basis := by
    apply OrderedProjection.same_of_stamp h₂.line (h₂.line.missed e hanswer).1
    · rw [hline]
      exact List.mem_append_right _ List.mem_cons_self
    · obtain ⟨when, he, _⟩ := ha
      have hentry : e = entryOf when receipt.seq receipt.batch.basis := he
      rw [hentry, hseq]
      rfl
  apply planned_current h h₂.line hw h.follows.sends.fresh (plan_current h hs hw hplan) hline hall
  exact hsame ▸ hanswer

theorem projection_exact (targets : ℕ) (as : List (Action P))
    (hv : orderly.ValidTrace (start targets : State P capacity) as) :
    Projects targets (start targets : State P capacity) as := by
  refine ⟨?_, ?_, ?_⟩
  · refine throughout_iff_along (J := fun s => ∃ l, Tracks targets s l) ?_ ?_
      ⟨Line.empty, start_tracks targets⟩ (start_agrees targets) hv
    · rintro s a ⟨l, h⟩ ha
      obtain ⟨l', _, h', _⟩ := next_tracks h ha
      exact ⟨l', h'⟩
    · rintro s a ⟨l, h⟩ hs ha
      exact next_agrees h hs ha
  · rintro bs cs w rfl hnone hw hrun
    obtain ⟨hbs, hcs⟩ := validTrace_append.mp hv
    obtain ⟨l, h⟩ := reaches_tracks (start_tracks targets) hbs
    rw [runTrace_append] at hw hrun ⊢
    obtain ⟨l', more, hsteps, h', hmore, hall⟩ := run_tracks h hcs hnone
    obtain rfl : more = [] := List.eq_nil_iff_forall_not_mem.mpr hall
    exact ran_foreseen h h' hsteps (by rw [hmore, List.append_nil]) hw hrun
  · rintro bs cs w batch rfl hagrees hphase hplan hsent hlater
    obtain ⟨hbs, hpush, hcs⟩ := validTrace_append.mp hv
    obtain ⟨l, h⟩ := reaches_tracks (start_tracks targets) hbs
    rw [runTrace_append] at hsent hlater ⊢
    exact planned_unmissed h hagrees hphase hpush hplan hsent hcs hlater

def deckProtocol : Protocol where
  Applied := Unit
  Clock := ℕ
  Command := ℕ
  Refusal := Unit
  Target := Bool
  index target := if target then 1 else 0
  framesSince moment start := if moment < start then none else some (moment - start)

/-- A batch on both targets is committed, a later one on the first is applied, and only the
later receipt is read; a third batch is then planned on the second target. -/
def overtakingTrace : List (Action deckProtocol) :=
  [.enter (.timed (100 : ℕ)) ⟨[(false, none), (true, none)], [(7 : ℕ)]⟩, .push,
    .enter (.timed (200 : ℕ)) ⟨[(false, some 1)], [(8 : ℕ)]⟩, .push, .drain, .drain,
    .nextDue (100 : ℕ) 64, .commit, .nextDue (200 : ℕ) 64, .apply (), .reply, .poll]

/-- As `overtakingTrace`; the batch planned on what the book shows then is sent and judged. -/
def misplannedTrace : List (Action deckProtocol) :=
  overtakingTrace ++
    [.enter (.timed (300 : ℕ)) ⟨[(true, none)], [(9 : ℕ)]⟩, .push, .drain, .nextDue (300 : ℕ) 64]

theorem push_enabled {w : P.Clock} {batch : Batch P} {n : ℕ} (seqs : List ℕ)
    (moments : List P.Clock) (hphase : s.phase = .admitted (.timed w) batch)
    (hnext : s.sender.next = n) (hn : n < 2 ^ 64 - 1) (hseqs : s.accepted.map Sent.seq = seqs)
    (hnames : ∀ entry ∈ batch.basis, ∀ m, entry.2 = some m → m ∈ seqs)
    (hexecuted : executed s = moments) (hw : ∀ moment ∈ moments, moment ≤ w) :
    orderly.Enabled s .push := by
  have hadmitted {when' : When P.Clock} {batch' : Batch P}
      (h : s.phase = .admitted when' batch') : .timed w = when' ∧ batch = batch' :=
    SenderPhase.admitted.inj (hphase.symm.trans h)
  refine ⟨⟨.timed w, batch, hphase⟩, hnext ▸ hn, ?_, ?_⟩
  · intro when' batch' h
    rw [← (hadmitted h).2, hseqs]
    exact hnames
  · intro when' batch' h moment hmoment
    rw [← (hadmitted h).1]
    exact timed_le.mpr (hw moment (hexecuted ▸ hmoment))

theorem nextDue_enabled {start : P.Clock} {frames : ℕ} {replies : List (Receipt P)}
    (hready : s.Ready) (hreplies : (CommandLevel.takeDue s.docket start frames).replies = replies)
    (hstale : ∀ receipt ∈ replies, receipt.outcome = .rejected .stale)
    (hdrained : s.commands.items = []) : orderly.Enabled s (.nextDue start frames) := by
  refine ⟨hready, hreplies ▸ hstale, fun judged _ _ sent hsent => ?_⟩
  rw [hdrained] at hsent
  exact absurd hsent List.not_mem_nil

theorem apply_enabled {a : Action P} (ha : (∃ data, a = .apply data) ∨ a = .commit)
    (hlive : s.stage = .live) (hdue : s.holdsDue = true) (hquiet : s.replies = [])
    (hdrained : s.commands.items = []) : orderly.Enabled s a := by
  have hahead : ∀ held, s.hand = .due held → ∀ sent ∈ s.commands.items,
      .timed held.moment ≤ sent.when := by
    intro held _ sent hsent
    rw [hdrained] at hsent
    exact absurd hsent List.not_mem_nil
  rcases ha with ⟨data, rfl⟩ | rfl
  · exact ⟨⟨hlive, hdue, hquiet⟩, hahead⟩
  · exact ⟨⟨hlive, hdue, hquiet⟩, hahead⟩

theorem misplanned_valid :
    orderly.ValidTrace (start 2 : State deckProtocol 4) misplannedTrace := by
  have quiet : ∀ receipt ∈ ([] : List (Receipt deckProtocol)),
      receipt.outcome = .rejected .stale := fun receipt h => absurd h List.not_mem_nil
  have unnamed {basis : List (Bool × Option ℕ)} {seqs : List ℕ} (h : ∀ entry ∈ basis,
      entry.2 = none) : ∀ entry ∈ basis, ∀ m, entry.2 = some m → m ∈ seqs := by
    intro entry hentry m hm
    exact absurd ((h entry hentry).symm.trans hm) (Option.some_ne_none m).symm
  have both : ∀ entry ∈ [(false, (none : Option ℕ)), (true, none)], entry.2 = none := by decide
  have second : ∀ entry ∈ [(true, (none : Option ℕ))], entry.2 = none := by decide
  have planned : ∀ entry ∈ [(false, some 1)], ∀ m, entry.2 = some m → m ∈ [1] := by simp
  have before (w : ℕ) : ∀ moment ∈ ([] : List ℕ), moment ≤ w := fun m h =>
    absurd h List.not_mem_nil
  have after : ∀ moment ∈ [100, 200], moment ≤ 300 := by decide
  refine ⟨⟨rfl, _, rfl⟩, push_enabled [] [] rfl rfl ?_ rfl (unnamed both) rfl (before 100),
    ⟨rfl, _, rfl⟩, push_enabled [1] [] rfl rfl ?_ rfl planned rfl (before 200),
    ⟨⟨Or.inl rfl, rfl, rfl⟩, trivial⟩, ⟨⟨Or.inl rfl, rfl, rfl⟩, trivial⟩,
    nextDue_enabled ⟨rfl, rfl, rfl⟩ rfl quiet rfl, apply_enabled (Or.inr rfl) rfl rfl rfl rfl,
    nextDue_enabled ⟨rfl, rfl, rfl⟩ rfl quiet rfl,
    apply_enabled (Or.inl ⟨_, rfl⟩) rfl rfl rfl rfl, ⟨List.cons_ne_nil _ _, trivial⟩,
    ⟨rfl, trivial⟩, ⟨rfl, _, rfl⟩,
    push_enabled [1, 2] ([100, 200] : List ℕ) rfl rfl ?_ rfl (unnamed second) rfl after,
    ⟨⟨Or.inl rfl, rfl, rfl⟩, trivial⟩,
    nextDue_enabled ⟨rfl, rfl, rfl⟩ rfl (List.forall_mem_singleton.mpr rfl) rfl, trivial⟩
  · decide
  · decide
  · decide

/-- Both batches are applied, and their receipts are read in the order they shifted. -/
def orderedTrace : List (Action deckProtocol) :=
  [.enter (.timed (100 : ℕ)) ⟨[(false, none), (true, none)], [(7 : ℕ)]⟩, .push,
    .enter (.timed (200 : ℕ)) ⟨[(false, some 1)], [(8 : ℕ)]⟩, .push, .drain, .drain,
    .nextDue (100 : ℕ) 64, .apply (), .reply, .nextDue (200 : ℕ) 64, .apply (), .reply, .poll,
    .poll]

theorem ordered_valid : orderly.ValidTrace (start 2 : State deckProtocol 4) orderedTrace := by
  have quiet : ∀ receipt ∈ ([] : List (Receipt deckProtocol)),
      receipt.outcome = .rejected .stale := fun receipt h => absurd h List.not_mem_nil
  have planned : ∀ entry ∈ [(false, some 1)], ∀ m, entry.2 = some m → m ∈ [1] := by simp
  have both : ∀ entry ∈ [(false, (none : Option ℕ)), (true, none)], ∀ m, entry.2 = some m →
      m ∈ ([] : List ℕ) := by simp
  have before (w : ℕ) : ∀ moment ∈ ([] : List ℕ), moment ≤ w := fun m h =>
    absurd h List.not_mem_nil
  refine ⟨⟨rfl, _, rfl⟩, push_enabled [] [] rfl rfl ?_ rfl both rfl (before 100),
    ⟨rfl, _, rfl⟩, push_enabled [1] [] rfl rfl ?_ rfl planned rfl (before 200),
    ⟨⟨Or.inl rfl, rfl, rfl⟩, trivial⟩, ⟨⟨Or.inl rfl, rfl, rfl⟩, trivial⟩,
    nextDue_enabled ⟨rfl, rfl, rfl⟩ rfl quiet rfl,
    apply_enabled (Or.inl ⟨_, rfl⟩) rfl rfl rfl rfl, ⟨List.cons_ne_nil _ _, trivial⟩,
    nextDue_enabled ⟨rfl, rfl, rfl⟩ rfl quiet rfl,
    apply_enabled (Or.inl ⟨_, rfl⟩) rfl rfl rfl rfl, ⟨List.cons_ne_nil _ _, trivial⟩,
    ⟨rfl, trivial⟩, ⟨rfl, trivial⟩, trivial⟩
  · decide
  · decide

theorem projection_exact_ordered :
    orderly.Throughout Agrees (start 2 : State deckProtocol 4) orderedTrace := by
  refine (projection_exact 2 orderedTrace ordered_valid).agrees.mpr ⟨trivial, trivial, trivial,
    trivial, trivial, trivial, trivial, trivial, trivial, trivial, trivial, trivial, ?_, ?_,
    trivial⟩
  · intro receipt answers hpop batch hbatch x hx y hy hpast
    cases hpop
    have hone : batch = (2, [(false, some 1)]) := List.mem_singleton.mp hbatch
    subst hone
    have hsame : x = y := (List.mem_singleton.mp hx).trans (List.mem_singleton.mp hy).symm
    exact hsame ▸ hpast
  · intro receipt answers hpop batch hbatch
    cases hpop
    exact absurd hbatch List.not_mem_nil

/-- The receipt of the later batch hides the committed one on the second target, and the batch
planned there is answered Stale for a batch sent before it. -/
theorem projection_overtaken :
    orderly.ValidTrace (start 2 : State deckProtocol 4) misplannedTrace ∧
      ¬ Agrees (orderly.runTrace (start 2 : State deckProtocol 4) overtakingTrace) ∧
      (orderly.runTrace (start 2 : State deckProtocol 4) overtakingTrace).sender.book.basis
        true (.timed (300 : ℕ)) = none ∧
      ∃ receipt ∈ (orderly.runTrace (start 2 : State deckProtocol 4) misplannedTrace).replies,
        receipt.seq = 3 ∧ receipt.outcome = .rejected .stale := by
  refine ⟨misplanned_valid, fun hagrees => ?_, rfl, ?_⟩
  · have after : ∀ moment ∈ [100, 200], moment ≤ 300 := by decide
    have hshown : none = some 1 := hagrees true (300 : ℕ) after
    cases hshown
  · exact ⟨_, List.mem_singleton.mpr rfl, rfl, rfl⟩

end CommandPlanning

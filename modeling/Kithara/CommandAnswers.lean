import Kithara.CommandChannel

/-! Every accepted batch comes back in exactly one receipt. What is in flight is counted over all
the places a batch can be in; each step moves batches between them, accepts one or reads one. -/
namespace CommandAnswers

open BoundedRing CommandProtocol CommandDocket CommandLevel CommandChannel TransitionSystem

variable {P : Protocol} {capacity : ℕ} {τ : Type*} (label : Batch P → τ)

/-- The batches sent and not yet read back, each by its number and label. -/
def inFlight (s : State P capacity) : Multiset (ℕ × τ) :=
  (s.commands.items.map (Sent.tag label) : Multiset (ℕ × τ)) + s.docket.content label +
    s.hand.content label + s.replies.map (Receipt.tag label) +
    s.answers.items.map (Receipt.tag label)

/-- The step moves batches from place to place and leaves the sender's account alone. -/
structure Moves (s s' : State P capacity) : Prop where
  inFlight : inFlight label s' = inFlight label s
  sender : s'.sender = s.sender
  accepted : s'.accepted = s.accepted
  answered : s'.answered = s.answered

/-- The step accepts one batch, numbered next, against one credit. -/
structure Accepts (s s' : State P capacity) (sent : Sent P) : Prop where
  inFlight : inFlight label s' = sent.tag label ::ₘ inFlight label s
  seq : sent.seq = s.sender.next
  next : s'.sender.next = Seq.next s.sender.next
  credits : s'.sender.book.credits + 1 = s.sender.book.credits
  accepted : s'.accepted = s.accepted ++ [sent]
  answered : s'.answered = s.answered

/-- The step reads one receipt, which gives its credit back. -/
structure Reads (s s' : State P capacity) (receipt : Receipt P) : Prop where
  inFlight : inFlight label s = receipt.tag label ::ₘ inFlight label s'
  next : s'.sender.next = s.sender.next
  credits : s'.sender.book.credits = s.sender.book.credits + 1
  accepted : s'.accepted = s.accepted
  answered : s'.answered = s.answered ++ [receipt]

/-- Nothing but the rings is left once the inbox is torn down, step by step. -/
structure TornDown (s : State P capacity) : Prop where
  hand : s.stage ≠ .live → s.hand = .empty
  docket : s.stage ≠ .live → s.stage ≠ .closed → s.docket.size = 0
  replies : s.stage = .unread ∨ s.stage = .gone → s.replies = []

def numbers (n : ℕ) : List ℕ := (List.range n).map fun k => Seq.next^[k] Seq.first

structure Invariant (s : State P capacity) : Prop where
  conserved : (s.accepted.map (Sent.tag label) : Multiset (ℕ × τ)) =
    inFlight label s + s.answered.map (Receipt.tag label)
  credits : s.sender.book.credits + Multiset.card (inFlight label s) = capacity
  numbered : s.accepted.map Sent.seq = numbers s.accepted.length
  next : s.sender.next = Seq.next^[s.accepted.length] Seq.first
  tornDown : TornDown s

variable {label}

theorem take_inFlight (s : State P capacity) (t : Turn P) :
    inFlight label (s.take t) = (s.commands.items.map (Sent.tag label) : Multiset (ℕ × τ)) +
      t.content label + (s.answers.items.map (Receipt.tag label) : Multiset (ℕ × τ)) := by
  simp only [inFlight, State.take, Turn.content, add_assoc]

theorem quiet_inFlight {s : State P capacity} (hr : s.replies = []) :
    inFlight label s = (s.commands.items.map (Sent.tag label) : Multiset (ℕ × τ)) +
      (s.docket.content label + s.hand.content label) +
      (s.answers.items.map (Receipt.tag label) : Multiset (ℕ × τ)) := by
  simp only [inFlight, hr, List.map_nil, Multiset.coe_nil, add_zero, add_assoc]

theorem take_moves {s : State P capacity} {t : Turn P} (hr : s.replies = [])
    (ht : t.content label = s.docket.content label + s.hand.content label) :
    Moves label s (s.take t) := by
  refine ⟨?_, rfl, rfl, rfl⟩
  rw [take_inFlight, ht, quiet_inFlight hr]

theorem empty_hand {s : State P capacity} (h : s.inHand = false) : s.hand = .empty := by
  simp only [State.inHand] at h
  cases hh : s.hand with
  | empty => rfl
  | due held => rw [hh] at h; cases h
  | deferred held => rw [hh] at h; cases h

theorem ready_moves {s : State P capacity} {t : Turn P} (h : s.Ready)
    (ht : t.content label = s.docket.content label) : Moves label s (s.take t) := by
  refine take_moves h.2.2 ?_
  rw [ht, empty_hand h.2.1]
  exact (add_zero _).symm

theorem answerDue_moves {s : State P capacity} {answer : Due P → Turn P} (hr : s.replies = [])
    (ha : ∀ held, (answer held).content label =
      s.docket.content label + {(held.seq, label held.batch)}) :
    Moves label s (answerDue s answer) := by
  simp only [answerDue]
  cases hh : s.hand with
  | due held => exact take_moves hr (by rw [ha, hh]; rfl)
  | empty => exact ⟨rfl, rfl, rfl, rfl⟩
  | deferred held => exact ⟨rfl, rfl, rfl, rfl⟩

theorem answerDeferred_moves {s : State P capacity} {answer : Deferred P → Turn P}
    (hr : s.replies = []) (ha : ∀ held, (answer held).content label =
      s.docket.content label + {(held.seq, label held.batch)}) :
    Moves label s (answerDeferred s answer) := by
  simp only [answerDeferred]
  cases hh : s.hand with
  | deferred held => exact take_moves hr (by rw [ha, hh]; rfl)
  | empty => exact ⟨rfl, rfl, rfl, rfl⟩
  | due held => exact ⟨rfl, rfl, rfl, rfl⟩

theorem answerHand_moves {s : State P capacity} (hr : s.replies = []) (rejection : Rejection P) :
    Moves label s (answerHand s rejection) := by
  simp only [answerHand]
  cases hh : s.hand with
  | empty => exact ⟨rfl, rfl, rfl, rfl⟩
  | due held => exact take_moves hr (by rw [held.answer_content, hh]; rfl)
  | deferred held => exact take_moves hr (by rw [held.answer_content, hh]; rfl)

theorem editHand_content {edit : List P.Command → List P.Command} (h : Unseen label edit)
    (hand : Hand P) : (editHand edit hand).content label = hand.content label := by
  cases hand with
  | empty => rfl
  | due held =>
    have he : label (Batch.mk held.basis (edit held.commands)) = label held.batch := h held.batch
    simp only [editHand, Hand.content, Due.batch, he]
  | deferred held => rfl

theorem push_cases {s : Sender P} {commands : Ring (Sent P) capacity} {when : When P.Clock}
    {batch : Batch P} {sent : Sent P} {s' : Sender P} {commands' : Ring (Sent P) capacity}
    (h : s.push commands when batch = .ok (sent, s', commands')) :
    sent = { batch := batch, seq := s.next, when := when } ∧
      s' = { next := Seq.next s.next, book := s.book.spend when s.next batch.basis } ∧
      s'.book.credits + 1 = s.book.credits ∧ commands'.items = commands.items ++ [sent] := by
  unfold Sender.push at h
  split at h
  · cases h
  · split at h
    · cases h
    · rename_i hcredits
      split at h
      · cases h
      · dsimp only at h
        split at h
        · cases h
        · rename_i hpush
          cases h
          refine ⟨rfl, rfl, ?_, Ring.tryPush_eq_some hpush⟩
          have hspend : (s.book.spend when s.next batch.basis).credits = s.book.credits - 1 := by
            unfold Book.spend
            dsimp only
            split <;> rfl
          rw [hspend]
          omega

variable (label) in
theorem push_step (s : State P capacity) :
    Moves label s (next s .push) ∨ ∃ sent, s.phase = .admitted sent.when sent.batch ∧
      Accepts label s (next s .push) sent := by
  simp only [next]
  cases hp : s.phase with
  | admitted when batch =>
    dsimp only
    cases hpush : s.sender.push s.commands when batch with
    | error e => exact Or.inl ⟨rfl, rfl, rfl, rfl⟩
    | ok r =>
      obtain ⟨sent, sender, commands⟩ := r
      obtain ⟨rfl, rfl, hcredits, hitems⟩ := push_cases hpush
      refine Or.inr ⟨_, rfl, ?_, rfl, rfl, hcredits, rfl, rfl⟩
      simp only [inFlight, hitems, Docket.coe_map_perm _ (List.perm_append_singleton _ _),
        List.map_cons, ← Multiset.cons_coe, Multiset.cons_add]
  | idle => exact Or.inl ⟨rfl, rfl, rfl, rfl⟩
  | emptied => exact Or.inl ⟨rfl, rfl, rfl, rfl⟩
  | orphaning => exact Or.inl ⟨rfl, rfl, rfl, rfl⟩

variable (label) in
theorem poll_step (s : State P capacity) :
    Moves label s (next s .poll) ∨ ∃ receipt, Reads label s (next s .poll) receipt := by
  simp only [next]
  cases hpop : s.answers.tryPop with
  | none => exact Or.inl ⟨rfl, rfl, rfl, rfl⟩
  | some r =>
    obtain ⟨receipt, answers⟩ := r
    refine Or.inr ⟨receipt, ?_, rfl, rfl, rfl, rfl⟩
    simp only [inFlight, State.read, Ring.tryPop_eq_some hpop, List.map_cons, ← Multiset.cons_coe,
      Multiset.add_cons]

theorem popOrphan_step (s : State P capacity) :
    Moves label s (next s .popOrphan) ∨
      ∃ receipt, Reads label s (next s .popOrphan) receipt := by
  simp only [next]
  cases hpop : s.commands.tryPop with
  | none => exact Or.inl ⟨rfl, rfl, rfl, rfl⟩
  | some r =>
    obtain ⟨sent, commands⟩ := r
    refine Or.inr ⟨sent.unanswered, ?_, rfl, rfl, rfl, rfl⟩
    simp only [inFlight, State.read, Ring.tryPop_eq_some hpop, List.map_cons, ← Multiset.cons_coe,
      Multiset.cons_add, Sent.unanswered, tag_reject]

theorem drain_moves (s : State P capacity) : Moves label s (next s .drain) := by
  simp only [next]
  cases hpop : s.commands.tryPop with
  | none => exact ⟨rfl, rfl, rfl, rfl⟩
  | some r =>
    obtain ⟨sent, commands⟩ := r
    refine ⟨?_, rfl, rfl, rfl⟩
    simp only [inFlight, Ring.tryPop_eq_some hpop, Docket.content_insert, List.map_cons,
      ← Multiset.cons_coe, Multiset.cons_add, Multiset.add_cons]

/-- A reply always finds room: the ring and what is to enter it are batches in flight. -/
theorem ring_has_room {s : State P capacity} (h : Multiset.card (inFlight label s) ≤ capacity)
    (hr : s.replies ≠ []) : s.answers.items.length < capacity := by
  have hpos : 0 < s.replies.length := List.length_pos_iff.mpr hr
  simp only [inFlight, Multiset.card_add, Multiset.coe_card, List.length_map] at h
  omega

theorem reply_moves {s : State P capacity} (h : Multiset.card (inFlight label s) ≤ capacity) :
    Moves label s (next s .reply) := by
  simp only [next]
  cases hr : s.replies with
  | nil => exact ⟨rfl, rfl, rfl, rfl⟩
  | cons receipt rest =>
    obtain ⟨answers, hpush⟩ := Ring.tryPush_isSome (x := receipt)
      (ring_has_room h (by rw [hr]; exact List.cons_ne_nil _ _))
    simp only [hpush]
    refine ⟨?_, rfl, rfl, rfl⟩
    simp only [inFlight, hr, Ring.tryPush_eq_some hpush,
      Docket.coe_map_perm _ (List.perm_append_singleton receipt _), List.map_cons,
      ← Multiset.cons_coe, Multiset.cons_add, Multiset.add_cons]

/-- The steps that neither send, read nor reply, nor take the docket apart. -/
def Calm : Action P → Prop
  | .push | .poll | .popOrphan | .reply | .unanswer => False
  | _ => True

theorem calm_moves {s : State P capacity} {a : Action P} (ha : Enabled label s a) (hc : Calm a) :
    Moves label s (next s a) := by
  cases a with
  | enter when batch =>
    simp only [next]
    split <;> exact ⟨rfl, rfl, rfl, rfl⟩
  | push => exact hc.elim
  | poll => exact hc.elim
  | checkHeld => exact ⟨rfl, rfl, rfl, rfl⟩
  | popOrphan => exact hc.elim
  | drain => exact drain_moves s
  | nextDue start frames => exact ready_moves ha (takeDue_content _ _ _)
  | nextDeferred => exact ready_moves ha (takeDeferred_content _)
  | resume seq start moment => exact ready_moves ha (takeParked_content _ _ _ _)
  | complete seq data => exact take_moves ha.2.2 (complete_content _ _ _ _)
  | refuseTimed refusal => exact ready_moves ha (refuseTimed_content _ _)
  | apply data => exact answerDue_moves ha.2.2 fun held => held.apply_content _ _
  | refuse refusal => exact answerHand_moves ha.2.2 _
  | defer => exact answerDue_moves ha.2.2 fun held => held.defer_content _
  | commit => exact answerDue_moves ha.2.2 fun held => held.commit_content _
  | park => exact answerDeferred_moves ha.2.2 fun held => held.park_content _
  | drop => exact answerHand_moves ha.2.2 _
  | editHand edit =>
    refine ⟨?_, rfl, rfl, rfl⟩
    simp only [inFlight, next, editHand_content ha.2.2.2]
  | editCommitted seq edit =>
    refine ⟨?_, rfl, rfl, rfl⟩
    simp only [inFlight, next, editCommitted_content ha.2.2.2]
  | reply => exact hc.elim
  | close => exact ⟨rfl, rfl, rfl, rfl⟩
  | unanswer => exact hc.elim
  | releaseCommands => exact ⟨rfl, rfl, rfl, rfl⟩
  | releaseAnswers => exact ⟨rfl, rfl, rfl, rfl⟩

theorem next_cases {s : State P capacity} (h : Multiset.card (inFlight label s) ≤ capacity)
    (ht : TornDown s) {a : Action P} (ha : Enabled label s a) :
    Moves label s (next s a) ∨ (∃ sent, Accepts label s (next s a) sent) ∨
      ∃ receipt, Reads label s (next s a) receipt := by
  cases a with
  | push => exact (push_step label s).imp_right fun ⟨sent, _, hs⟩ => Or.inl ⟨sent, hs⟩
  | poll => exact (poll_step label s).imp_right Or.inr
  | popOrphan => exact (popOrphan_step s).imp_right Or.inr
  | reply => exact Or.inl (reply_moves h)
  | unanswer =>
    obtain ⟨hstage, hreplies⟩ := ha
    have hhand : s.hand = .empty := ht.hand (by rw [hstage]; decide)
    have hmoves : Moves label s (s.take (unanswered s.docket)) :=
      take_moves hreplies (by rw [unanswered_content, hhand]; exact (add_zero _).symm)
    exact Or.inl ⟨hmoves.inFlight, hmoves.sender, hmoves.accepted, hmoves.answered⟩
  | _ => exact Or.inl (calm_moves ha trivial)

theorem tornDown_live {s : State P capacity} (h : s.stage = .live) : TornDown s := by
  refine ⟨fun hn => absurd h hn, fun hn => absurd h hn, ?_⟩
  rintro (hu | hg)
  · exact absurd (h.symm.trans hu) (by decide)
  · exact absurd (h.symm.trans hg) (by decide)

theorem tornDown_of_same {s s' : State P capacity} (h : TornDown s) (hstage : s'.stage = s.stage)
    (hhand : s'.hand = s.hand) (hdocket : s'.docket = s.docket)
    (hreplies : s'.replies = s.replies) : TornDown s' := by
  constructor
  · rw [hstage, hhand]
    exact h.hand
  · rw [hstage, hdocket]
    exact h.docket
  · rw [hstage, hreplies]
    exact h.replies

theorem answerDue_stage (s : State P capacity) (answer : Due P → Turn P) :
    (answerDue s answer).stage = s.stage := by
  simp only [answerDue]
  cases s.hand <;> rfl

theorem answerDeferred_stage (s : State P capacity) (answer : Deferred P → Turn P) :
    (answerDeferred s answer).stage = s.stage := by
  simp only [answerDeferred]
  cases s.hand <;> rfl

theorem answerHand_stage (s : State P capacity) (rejection : Rejection P) :
    (answerHand s rejection).stage = s.stage := by
  simp only [answerHand]
  cases s.hand <;> rfl

theorem next_tornDown {s : State P capacity} (h : TornDown s) {a : Action P}
    (ha : Enabled label s a) : TornDown (next s a) := by
  cases a with
  | enter when batch =>
    simp only [next]
    split <;> exact tornDown_of_same h rfl rfl rfl rfl
  | push =>
    simp only [next]
    split
    · split <;> exact tornDown_of_same h rfl rfl rfl rfl
    · exact h
  | poll =>
    simp only [next]
    split <;> exact tornDown_of_same h rfl rfl rfl rfl
  | checkHeld => exact tornDown_of_same h rfl rfl rfl rfl
  | popOrphan =>
    simp only [next]
    split <;> exact tornDown_of_same h rfl rfl rfl rfl
  | drain =>
    simp only [next]
    split
    · rcases ha.1 with hlive | hclosed
      · exact tornDown_live hlive
      · refine ⟨h.hand, fun _ hn => absurd hclosed hn, h.replies⟩
    · exact h
  | nextDue start frames => exact tornDown_live ha.1
  | nextDeferred => exact tornDown_live ha.1
  | resume seq start moment => exact tornDown_live ha.1
  | complete seq data => exact tornDown_live ha.1
  | refuseTimed refusal => exact tornDown_live ha.1
  | apply data => exact tornDown_live ((answerDue_stage s _).trans ha.1)
  | refuse refusal => exact tornDown_live ((answerHand_stage s _).trans ha.1)
  | defer => exact tornDown_live ((answerDue_stage s _).trans ha.1)
  | commit => exact tornDown_live ((answerDue_stage s _).trans ha.1)
  | park => exact tornDown_live ((answerDeferred_stage s _).trans ha.1)
  | drop => exact tornDown_live ((answerHand_stage s _).trans ha.1)
  | editHand edit => exact tornDown_live ha.1
  | editCommitted seq edit => exact tornDown_live ha.1
  | reply =>
    simp only [next]
    cases hr : s.replies with
    | nil => exact h
    | cons receipt rest =>
      have hstage (hs : s.stage = .unread ∨ s.stage = .gone) : False :=
        List.cons_ne_nil receipt rest (hr.symm.trans (h.replies hs))
      dsimp only
      split <;> exact ⟨h.hand, h.docket, fun hs => (hstage hs).elim⟩
  | close =>
    refine ⟨fun _ => empty_hand ha.2.1, fun _ hn => absurd rfl hn, ?_⟩
    rintro (hu | hg)
    · cases hu
    · cases hg
  | unanswer =>
    refine ⟨fun _ => rfl, fun _ _ => unanswered_empty s.docket, ?_⟩
    rintro (hu | hg)
    · cases hu
    · cases hg
  | releaseCommands =>
    have hne : s.stage ≠ .live ∧ s.stage ≠ .closed := by rw [ha.1]; decide
    exact ⟨fun _ => h.hand hne.1, fun _ _ => h.docket hne.1 hne.2, fun _ => ha.2⟩
  | releaseAnswers =>
    have hu : s.stage = .unread := ha
    have hne : s.stage ≠ .live ∧ s.stage ≠ .closed := by rw [hu]; decide
    exact ⟨fun _ => h.hand hne.1, fun _ _ => h.docket hne.1 hne.2, fun _ => h.replies (Or.inl hu)⟩

theorem numbers_succ (n : ℕ) : numbers (n + 1) = numbers n ++ [Seq.next^[n] Seq.first] := by
  simp [numbers, List.range_succ]

theorem moves_invariant {s s' : State P capacity} (h : Invariant label s) (hm : Moves label s s')
    (ht : TornDown s') : Invariant label s' := by
  refine ⟨?_, ?_, ?_, ?_, ht⟩
  · rw [hm.accepted, hm.inFlight, hm.answered]
    exact h.conserved
  · rw [hm.sender, hm.inFlight]
    exact h.credits
  · rw [hm.accepted]
    exact h.numbered
  · rw [hm.sender, hm.accepted]
    exact h.next

theorem accepts_invariant {s s' : State P capacity} {sent : Sent P} (h : Invariant label s)
    (ha : Accepts label s s' sent) (ht : TornDown s') : Invariant label s' := by
  refine ⟨?_, ?_, ?_, ?_, ht⟩
  · rw [ha.accepted, ha.inFlight, ha.answered,
      Docket.coe_map_perm _ (List.perm_append_singleton sent s.accepted), List.map_cons,
      ← Multiset.cons_coe, h.conserved, Multiset.cons_add]
  · have hc := h.credits
    have hs := ha.credits
    rw [ha.inFlight, Multiset.card_cons]
    omega
  · rw [ha.accepted, List.map_append, h.numbered, List.length_append, List.map_singleton,
      List.length_singleton, numbers_succ, ha.seq, h.next]
  · rw [ha.next, ha.accepted, List.length_append, List.length_singleton,
      Function.iterate_succ_apply', h.next]

theorem reads_invariant {s s' : State P capacity} {receipt : Receipt P} (h : Invariant label s)
    (hr : Reads label s s' receipt) (ht : TornDown s') : Invariant label s' := by
  refine ⟨?_, ?_, ?_, ?_, ht⟩
  · rw [hr.accepted, hr.answered,
      Docket.coe_map_perm _ (List.perm_append_singleton receipt s.answered), List.map_cons,
      ← Multiset.cons_coe, h.conserved, hr.inFlight, Multiset.cons_add, Multiset.add_cons]
  · have hc := h.credits
    have hs := hr.credits
    rw [hr.inFlight, Multiset.card_cons] at hc
    omega
  · rw [hr.accepted]
    exact h.numbered
  · rw [hr.next, hr.accepted]
    exact h.next

theorem next_invariant {s : State P capacity} (h : Invariant label s) {a : Action P}
    (ha : Enabled label s a) : Invariant label (next s a) := by
  have hcard : Multiset.card (inFlight label s) ≤ capacity := by
    have := h.credits
    omega
  have ht := next_tornDown h.tornDown ha
  rcases next_cases hcard h.tornDown ha with hm | ⟨sent, hs⟩ | ⟨receipt, hr⟩
  · exact moves_invariant h hm ht
  · exact accepts_invariant h hs ht
  · exact reads_invariant h hr ht

theorem start_invariant (targets : ℕ) : Invariant label (start targets : State P capacity) := by
  have hempty : inFlight label (start targets : State P capacity) = 0 := rfl
  refine ⟨?_, ?_, rfl, rfl, tornDown_live rfl⟩
  · rw [hempty]
    rfl
  · rw [hempty]
    rfl

variable (label) in
structure OneAnswer (s : State P capacity) : Prop where
  /-- Accepted batches are in flight or answered, each once, under their number and label. -/
  conserved : (s.accepted.map (Sent.tag label) : Multiset (ℕ × τ)) =
    inFlight label s + s.answered.map (Receipt.tag label)
  numbered : s.accepted.map Sent.seq = numbers s.accepted.length
  credits : s.sender.book.credits + Multiset.card (inFlight label s) = capacity
  /-- A step that accepts no batch, a refused send above all, spends no number and no credit. -/
  refused : ∀ a, Enabled label s a → (next s a).accepted = s.accepted →
    (next s a).sender.next = s.sender.next ∧ s.sender.book.credits ≤ (next s a).sender.book.credits
  ring : s.replies ≠ [] → s.answers.items.length < capacity
  reserved : s.docket.schedule.length ≤ capacity ∧ s.docket.arrived.length ≤ capacity ∧
    s.docket.parked.length ≤ capacity ∧ s.docket.committed.length ≤ capacity
  /-- Past the inbox's drop every batch in flight is in a ring, where a read finds it. -/
  readable : s.stage = .gone → s.phase = .idle → inFlight label s ≠ 0 →
    ((machine label).runTrace s (if s.answers.items = [] then [.poll, .checkHeld, .popOrphan]
      else [.poll])).answered.length = s.answered.length + 1
  answered : s.stage = .gone → inFlight label s = 0 →
    (s.accepted.map (Sent.tag label) : Multiset (ℕ × τ)) = s.answered.map (Receipt.tag label)

theorem gone_readable {s : State P capacity} (ht : TornDown s) (hg : s.stage = .gone)
    (hne : inFlight label s ≠ 0) :
    ((machine label).runTrace s (if s.answers.items = [] then [.poll, .checkHeld, .popOrphan]
      else [.poll])).answered.length = s.answered.length + 1 := by
  have hlive : s.stage ≠ .live ∧ s.stage ≠ .closed := by rw [hg]; decide
  by_cases hans : s.answers.items = []
  · rw [if_pos hans]
    have hpoll : s.answers.tryPop = none := by
      cases hp : s.answers.tryPop with
      | none => rfl
      | some r => exact absurd (hans.symm.trans (Ring.tryPop_eq_some hp)) (by simp)
    cases hc : s.commands.tryPop with
    | none =>
      refine absurd ?_ hne
      have hdocket : s.docket.content label = 0 := by
        rw [← Multiset.card_eq_zero, Docket.card_content]
        exact ht.docket hlive.1 hlive.2
      simp only [inFlight, Ring.tryPop_eq_none hc, hdocket, ht.hand hlive.1, ht.replies (Or.inr hg),
        hans, Hand.content, List.map_nil, Multiset.coe_nil, add_zero]
    | some r =>
      obtain ⟨sent, commands⟩ := r
      simp [machine, next, hpoll, hg, hc, State.read]
  · rw [if_neg hans]
    cases hp : s.answers.tryPop with
    | none => exact absurd (Ring.tryPop_eq_none hp) hans
    | some r =>
      obtain ⟨receipt, answers⟩ := r
      simp [machine, next, hp, State.read]

theorem invariant_oneAnswer {s : State P capacity} (h : Invariant label s) :
    OneAnswer label s := by
  have hcard : Multiset.card (inFlight label s) ≤ capacity := by
    have := h.credits
    omega
  constructor
  · exact h.conserved
  · exact h.numbered
  · exact h.credits
  · intro a ha hsame
    rcases next_cases hcard h.tornDown ha with hm | ⟨sent, hs⟩ | ⟨receipt, hr⟩
    · rw [hm.sender]
      exact ⟨rfl, le_rfl⟩
    · rw [hs.accepted] at hsame
      exact absurd hsame (by simp)
    · refine ⟨hr.next, ?_⟩
      rw [hr.credits]
      exact Nat.le_succ _
  · exact ring_has_room hcard
  · have hsize : s.docket.size ≤ capacity := by
      rw [← Docket.card_content label]
      simp only [inFlight, Multiset.card_add] at hcard
      omega
    simp only [Docket.size] at hsize
    omega
  · intro hg _ hne
    exact gone_readable h.tornDown hg hne
  · intro _ hzero
    rw [h.conserved, hzero, zero_add]

variable (label) in
theorem one_answer_each (targets : ℕ) (as : List (Action P))
    (h : (machine label).ValidTrace (start targets : State P capacity) as) :
    OneAnswer label ((machine label).runTrace (start targets : State P capacity) as) :=
  invariant_oneAnswer (reachable_invariant (M := machine label) (I := Invariant label)
    (fun _ _ hi ha => next_invariant hi ha) (start_invariant targets) ⟨as, h, rfl⟩)

/-- A clock of frames from zero, and a single target. -/
def frameProtocol : Protocol where
  Applied := Unit
  Clock := ℕ
  Command := ℕ
  Refusal := Unit
  Target := Unit
  index _ := 0
  framesSince moment start := if moment < start then none else some (moment - start)

/-- One batch applied, and one pushed past a gate that closed behind the sender's check. -/
def raceTrace : List (Action frameProtocol) :=
  [.enter .next ⟨[((), none)], [(7 : ℕ)]⟩, .push, .drain, .nextDue (0 : ℕ) 64, .apply (), .reply,
    .enter .next ⟨[((), some 1)], [(8 : ℕ)]⟩, .close, .unanswer, .push, .releaseCommands,
    .releaseAnswers, .poll, .poll, .checkHeld, .popOrphan]

theorem one_answer_each_race :
    OneAnswer id ((machine id).runTrace (start 1 : State frameProtocol 2) raceTrace) ∧
      ((machine id).runTrace (start 1 : State frameProtocol 2) raceTrace).answered.map
        Receipt.seq = [1, 2] := by
  refine ⟨one_answer_each id 1 raceTrace ?_, rfl⟩
  exact ⟨rfl, ⟨_, _, rfl⟩, ⟨Or.inl rfl, rfl, rfl⟩, ⟨rfl, rfl, rfl⟩, ⟨rfl, rfl, rfl⟩,
    List.cons_ne_nil _ _, rfl, ⟨rfl, rfl, rfl⟩, ⟨rfl, rfl⟩, ⟨_, _, rfl⟩, ⟨rfl, rfl⟩, rfl, rfl, rfl,
    rfl, rfl, trivial⟩

end CommandAnswers

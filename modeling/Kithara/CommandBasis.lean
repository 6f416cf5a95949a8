import Kithara.BasisReplay
import Kithara.CommandAnswers

/-! The basis a batch names and the ledger that judges it. Every shift of the ledger is a batch
current at that moment, so the shifts of a target form a chain, and a batch that the ledger left
behind stays behind. -/
namespace CommandBasis

open Extraction CommandProtocol CommandDocket CommandLevel CommandChannel CommandAnswers
open BasisReplay (Change Current Chained Forward Outdated record lastStamp)
open TransitionSystem

variable {P : Protocol} {capacity : ℕ}

/-- An entry of a ledger in the order of shifts: no entry, an entry not shifted yet, the batch
that shifted it last. -/
def mark : Option (Option ℕ) → WithBot (WithBot ℕ)
  | none => ⊥
  | some none => ((⊥ : WithBot ℕ) : WithBot (WithBot ℕ))
  | some (some seq) => WithBot.some (WithBot.some seq)

theorem mark_injective : Function.Injective mark := by
  rintro (_ | _ | a) (_ | _ | b) h
  · rfl
  · exact absurd h.symm WithBot.coe_ne_bot
  · exact absurd h.symm WithBot.coe_ne_bot
  · exact absurd h WithBot.coe_ne_bot
  · rfl
  · exact absurd (WithBot.coe_injective h).symm WithBot.coe_ne_bot
  · exact absurd h WithBot.coe_ne_bot
  · exact absurd (WithBot.coe_injective h) WithBot.coe_ne_bot
  · rw [WithBot.coe_injective (WithBot.coe_injective h)]

theorem mark_some_ne_bot (last : Option ℕ) : mark (some last) ≠ ⊥ := by
  cases last <;> exact WithBot.coe_ne_bot

theorem mark_some_le {last : Option ℕ} {seq : ℕ} :
    mark (some last) ≤ mark (some (some seq)) ↔ ∀ m, last = some m → m ≤ seq := by
  cases last with
  | none => simp [mark]
  | some m => simp [mark]

theorem mark_lt {last : Option ℕ} {entry : Option (Option ℕ)} :
    mark (some last) < mark entry ↔ ∃ current, entry = some (some current) ∧
      ∀ m, last = some m → m < current := by
  rcases entry with _ | _ | current
  · simp [mark]
  · cases last <;> simp [mark]
  · cases last <;> simp [mark]

def view (ledger : Ledger) (index : ℕ) : WithBot (WithBot ℕ) := mark ledger.last[index]?

/-- What a batch changes in the ledger, and what it was planned on. -/
def change (seq : ℕ) (basis : List (P.Target × Option ℕ)) : Change ℕ (WithBot (WithBot ℕ)) where
  stamp := mark (some (some seq))
  basis := basis.map fun entry => (P.index entry.1, mark (some entry.2))

theorem mem_names_change {seq index : ℕ} {basis : List (P.Target × Option ℕ)} :
    index ∈ (change seq basis).names ↔ basis.any (fun entry => P.index entry.1 = index) = true := by
  simp [Change.names, change]

theorem current_view {ledger : Ledger} {seq : ℕ} {basis : List (P.Target × Option ℕ)} :
    Current (view ledger) (change seq basis) ↔ ledger.isCurrent basis = true := by
  simp only [Current, change, view, Ledger.isCurrent, List.forall_mem_map, List.all_eq_true,
    decide_eq_true_eq, mark_injective.eq_iff]

theorem outdated_view {ledger : Ledger} (seq : ℕ) {basis : List (P.Target × Option ℕ)} :
    Outdated (view ledger) (change seq basis) ↔ ledger.outdates basis = true := by
  have hentry (entry : P.Target × Option ℕ) :
      mark (some entry.2) < mark ledger.last[P.index entry.1]? ↔
        ledger.outdates [entry] = true := by
    rw [mark_lt]
    simp only [Ledger.outdates, List.any_cons, List.any_nil, Bool.or_false]
    rcases ledger.last[P.index entry.1]? with _ | _ | current
    · simp
    · simp
    · cases hb : entry.2 <;> simp
  have hany : ledger.outdates basis = true ↔ ∃ entry ∈ basis, ledger.outdates [entry] = true := by
    simp [Ledger.outdates]
  rw [hany]
  simp only [Outdated, change, view, List.mem_map]
  constructor
  · rintro ⟨_, ⟨entry, hmem, rfl⟩, hlt⟩
    exact ⟨entry, hmem, (hentry entry).mp hlt⟩
  · rintro ⟨entry, hmem, hlt⟩
    exact ⟨_, ⟨entry, hmem, rfl⟩, (hentry entry).mpr hlt⟩

theorem view_record {ledger : Ledger} {seq : ℕ} {basis : List (P.Target × Option ℕ)}
    (h : ledger.isCurrent basis = true) :
    view (ledger.record basis seq) = record (view ledger) (change seq basis) := by
  funext index
  simp only [view, Ledger.record, List.getElem?_mapIdx]
  by_cases hn : index ∈ (change seq basis).names
  · rw [BasisReplay.record_of_mem hn]
    obtain ⟨entry, hentry, hindex⟩ := List.any_eq_true.mp (mem_names_change.mp hn)
    have hlast : ledger.last[index]? = some entry.2 := by
      rw [← of_decide_eq_true hindex]
      exact of_decide_eq_true (List.all_eq_true.mp h entry hentry)
    rw [hlast, Option.map_some, if_pos (mem_names_change.mp hn)]
    rfl
  · rw [BasisReplay.record_of_notMem hn]
    have hany : ¬ (basis.any fun entry => P.index entry.1 = index) = true :=
      fun hc => hn (mem_names_change.mpr hc)
    show _ = mark ledger.last[index]?
    cases ledger.last[index]? with
    | none => rfl
    | some last => rw [Option.map_some, if_neg hany]

def shiftOf (s : State P capacity) (a : Action P) : List (Due P) :=
  match a, s.hand with
  | .apply _, .due held => [held]
  | .commit, .due held => [held]
  | _, _ => []

def shift (ledger : Ledger) (due : Due P) : Ledger := ledger.record due.basis due.seq

theorem next_ledger (s : State P capacity) (a : Action P) :
    (next s a).docket.ledger = (shiftOf s a).foldl shift s.docket.ledger := by
  cases a with
  | enter when batch =>
    simp only [next]
    split <;> rfl
  | push =>
    simp only [next]
    split
    · split <;> rfl
    · rfl
  | poll =>
    simp only [next]
    split <;> rfl
  | checkHeld => rfl
  | popOrphan =>
    simp only [next]
    split <;> rfl
  | drain =>
    simp only [next]
    split
    · rename_i sent commands _
      show (s.docket.insert sent).ledger = s.docket.ledger
      simp only [Docket.insert]
      split <;> rfl
    · rfl
  | nextDue start frames => exact takeDue_ledger _ _ _
  | nextDeferred => exact takeDeferred_ledger _
  | resume seq start moment => exact takeParked_ledger _ _ _ _
  | complete seq data => exact complete_ledger _ _ _ _
  | refuseTimed refusal => rfl
  | apply data =>
    simp only [next, answerDue, shiftOf]
    cases s.hand with
    | empty => rfl
    | due held => exact (rejectOutdated_spec _).2.1
    | deferred held => rfl
  | refuse refusal =>
    simp only [next, answerHand]
    cases s.hand <;> rfl
  | defer =>
    simp only [next, answerDue]
    cases s.hand <;> rfl
  | commit =>
    simp only [next, answerDue, shiftOf]
    cases s.hand with
    | empty => rfl
    | due held => exact (rejectOutdated_spec _).2.1
    | deferred held => rfl
  | park =>
    simp only [next, answerDeferred]
    cases s.hand with
    | empty => rfl
    | due held => rfl
    | deferred held => exact held.park_ledger _
  | drop =>
    simp only [next, answerHand]
    cases s.hand <;> rfl
  | editHand edit => rfl
  | editCommitted seq edit => rfl
  | reply =>
    simp only [next]
    split
    · rfl
    · split <;> rfl
  | close => rfl
  | unanswer => exact unanswered_ledger _
  | releaseCommands => rfl
  | releaseAnswers => rfl

structure Drains (s s' : State P capacity) : Prop where
  inFlight : inFlight Batch.basis s' ≤ inFlight Batch.basis s
  accepted : s'.accepted = s.accepted
  next : s'.sender.next = s.sender.next

theorem reply_flow (s : State P capacity) : Drains s (next s .reply) := by
  simp only [next]
  cases hr : s.replies with
  | nil => exact ⟨le_rfl, rfl, rfl⟩
  | cons receipt rest =>
    cases hpush : s.answers.tryPush receipt with
    | none =>
      simp only [hpush]
      refine ⟨?_, rfl, rfl⟩
      simp only [CommandAnswers.inFlight, hr, List.map_cons, ← Multiset.cons_coe]
      exact add_le_add_left (add_le_add_right (Multiset.le_cons_self _ _) _) _
    | some answers =>
      simp only [hpush]
      refine ⟨?_, rfl, rfl⟩
      simp only [CommandAnswers.inFlight, hr, BoundedRing.Ring.tryPush_eq_some hpush,
        Docket.coe_map_perm _ (List.perm_append_singleton receipt _), List.map_cons,
        ← Multiset.cons_coe, Multiset.cons_add, Multiset.add_cons]
      exact le_rfl

theorem unanswer_flow {s : State P capacity} (hr : s.replies = []) :
    Drains s (next s .unanswer) := by
  refine ⟨?_, rfl, rfl⟩
  have hle : (unanswered s.docket).content Batch.basis ≤
      s.docket.content Batch.basis + s.hand.content Batch.basis := by
    rw [unanswered_content]
    exact Multiset.le_add_right _ _
  have hnext : CommandAnswers.inFlight Batch.basis (next s .unanswer) =
      CommandAnswers.inFlight Batch.basis (s.take (unanswered s.docket)) := rfl
  rw [hnext, take_inFlight, quiet_inFlight hr]
  exact add_le_add_left (add_le_add_right hle _) _

theorem next_flow {s : State P capacity} {a : Action P} (ha : Enabled Batch.basis s a) :
    Drains s (next s a) ∨ ∃ sent, a = .push ∧ s.phase = .admitted sent.when sent.batch ∧
      Accepts Batch.basis s (next s a) sent := by
  have moves {s' : State P capacity} (hm : Moves Batch.basis s s') : Drains s s' :=
    ⟨le_of_eq hm.inFlight, hm.accepted, congrArg Sender.next hm.sender⟩
  have reads {s' : State P capacity} {receipt : Receipt P}
      (hr : Reads Batch.basis s s' receipt) : Drains s s' := by
    refine ⟨?_, hr.accepted, hr.next⟩
    rw [hr.inFlight]
    exact Multiset.le_cons_self _ _
  cases a with
  | push =>
    rcases push_step Batch.basis s with hm | ⟨sent, hphase, hs⟩
    · exact Or.inl (moves hm)
    · exact Or.inr ⟨sent, rfl, hphase, hs⟩
  | poll => exact Or.inl ((poll_step Batch.basis s).elim moves fun ⟨_, hr⟩ => reads hr)
  | popOrphan => exact Or.inl ((popOrphan_step s).elim moves fun ⟨_, hr⟩ => reads hr)
  | reply => exact Or.inl (reply_flow s)
  | unanswer => exact Or.inl (unanswer_flow ha.2)
  | _ => exact Or.inl (moves (calm_moves ha trivial))

/-- The hand's batch is judged before it is held, and the ledger waits for its answer. -/
theorem next_judged {s : State P capacity} {a : Action P}
    (h : ∀ held, s.hand = .due held → s.docket.ledger.isCurrent held.basis = true) :
    ∀ held, (next s a).hand = .due held →
      (next s a).docket.ledger.isCurrent held.basis = true := by
  intro held hhand
  have keep (hsame : (next s a).hand = s.hand) (hshift : shiftOf s a = []) :
      (next s a).docket.ledger.isCurrent held.basis = true := by
    rw [next_ledger, hshift]
    exact h held (hsame.symm.trans hhand)
  cases a with
  | enter when batch =>
    refine keep ?_ rfl
    simp only [next]
    split <;> rfl
  | push =>
    refine keep ?_ rfl
    simp only [next]
    split
    · split <;> rfl
    · rfl
  | poll =>
    refine keep ?_ rfl
    simp only [next]
    split <;> rfl
  | checkHeld => exact h held hhand
  | popOrphan =>
    refine keep ?_ rfl
    simp only [next]
    split <;> rfl
  | drain =>
    refine keep ?_ rfl
    simp only [next]
    split <;> rfl
  | nextDue start frames =>
    have hcurrent := takeDue_current hhand
    rwa [← takeDue_ledger s.docket start frames] at hcurrent
  | nextDeferred =>
    simp only [next, State.take, takeDeferred] at hhand
    split at hhand <;> cases hhand
  | resume seq start moment =>
    have hcurrent := takeParked_current hhand
    rwa [← takeParked_ledger s.docket seq start moment] at hcurrent
  | complete seq data =>
    refine keep ?_ rfl
    simp only [next, State.take, complete]
    split <;> rfl
  | refuseTimed refusal => cases hhand
  | apply data =>
    cases hs : s.hand with
    | empty => simp [next, answerDue, hs] at hhand
    | due due => simp [next, answerDue, hs, State.take, Due.apply] at hhand
    | deferred deferred => simp [next, answerDue, hs] at hhand
  | refuse refusal =>
    cases hs : s.hand with
    | empty => simp [next, answerHand, hs] at hhand
    | due due => simp [next, answerHand, hs, State.take, Due.answer] at hhand
    | deferred deferred => simp [next, answerHand, hs, State.take, Deferred.answer] at hhand
  | defer =>
    cases hs : s.hand with
    | empty => simp [next, answerDue, hs] at hhand
    | due due => simp [next, answerDue, hs, State.take, Due.defer] at hhand
    | deferred deferred => simp [next, answerDue, hs] at hhand
  | commit =>
    cases hs : s.hand with
    | empty => simp [next, answerDue, hs] at hhand
    | due due => simp [next, answerDue, hs, State.take, Due.commit] at hhand
    | deferred deferred => simp [next, answerDue, hs] at hhand
  | park =>
    cases hs : s.hand with
    | empty => simp [next, answerDeferred, hs] at hhand
    | due due =>
      refine keep ?_ rfl
      simp only [next, answerDeferred, hs]
    | deferred deferred =>
      simp only [next, answerDeferred, hs, State.take, Deferred.park] at hhand
      split at hhand <;> cases hhand
  | drop =>
    cases hs : s.hand with
    | empty => simp [next, answerHand, hs] at hhand
    | due due => simp [next, answerHand, hs, State.take, Due.answer] at hhand
    | deferred deferred => simp [next, answerHand, hs, State.take, Deferred.answer] at hhand
  | editHand edit =>
    cases hs : s.hand with
    | empty => simp [next, editHand, hs] at hhand
    | due due =>
      simp only [next, editHand, hs, Hand.due.injEq] at hhand
      rw [← hhand]
      exact h due hs
    | deferred deferred => simp [next, editHand, hs] at hhand
  | editCommitted seq edit => exact h held hhand
  | reply =>
    refine keep ?_ rfl
    simp only [next]
    split
    · rfl
    · split <;> rfl
  | close => exact h held hhand
  | unanswer => cases hhand
  | releaseCommands => exact h held hhand
  | releaseAnswers => exact h held hhand

/-- A batch named in a basis was sent no later than the batch planned on it. -/
def FromEarlier (tag : ℕ × List (P.Target × Option ℕ)) : Prop :=
  ∀ entry ∈ tag.2, ∀ m, entry.2 = some m → m ≤ tag.1

theorem forward_change {seq : ℕ} {basis : List (P.Target × Option ℕ)}
    (h : FromEarlier (seq, basis)) : BasisReplay.Forward (change seq basis) := by
  intro e he
  obtain ⟨entry, hentry, rfl⟩ := List.mem_map.mp he
  exact mark_some_le.mpr (h entry hentry)

def NamesEarlier (s : State P capacity) : Action P → Prop
  | .push => ∀ when batch, s.phase = .admitted when batch → ∀ entry ∈ batch.basis,
      ∀ m, entry.2 = some m → m ∈ s.accepted.map Sent.seq
  | _ => True

/-- What holds while every batch is planned on earlier ones. -/
structure Based (s : State P capacity) : Prop where
  earlier : ∀ tag ∈ inFlight Batch.basis s, FromEarlier tag
  numbered : ∀ sent ∈ s.accepted, sent.seq ≤ s.sender.next
  bounded : s.sender.next ≤ 2 ^ 64 - 1
  judged : ∀ held, s.hand = .due held → s.docket.ledger.isCurrent held.basis = true

theorem start_based (targets : ℕ) : Based (start targets : State P capacity) := by
  refine ⟨?_, ?_, ?_, ?_⟩
  · exact fun tag htag => absurd htag (Multiset.notMem_zero tag)
  · exact fun sent hsent => absurd hsent List.not_mem_nil
  · show Seq.first ≤ 2 ^ 64 - 1
    simp only [Seq.first]
    omega
  · exact fun held hheld => by cases hheld

theorem next_based {s : State P capacity} {a : Action P} (h : Based s)
    (ha : Enabled Batch.basis s a) (hn : NamesEarlier s a) : Based (next s a) := by
  rcases next_flow ha with hd | ⟨sent, rfl, hphase, hs⟩
  · refine ⟨?_, ?_, ?_, next_judged h.judged⟩
    · exact fun tag htag => h.earlier tag (Multiset.mem_of_le hd.inFlight htag)
    · rw [hd.accepted, hd.next]
      exact h.numbered
    · rw [hd.next]
      exact h.bounded
  · have hgrow : s.sender.next ≤ Seq.next s.sender.next := by
      have := h.bounded
      simp only [Seq.next]
      omega
    refine ⟨?_, ?_, ?_, next_judged h.judged⟩
    · rw [hs.inFlight]
      intro tag htag
      rcases Multiset.mem_cons.mp htag with rfl | htag
      · intro entry hentry m hm
        obtain ⟨named, hnamed, rfl⟩ := List.mem_map.mp (hn _ _ hphase entry hentry m hm)
        show named.seq ≤ sent.seq
        rw [hs.seq]
        exact h.numbered named hnamed
      · exact h.earlier tag htag
    · rw [hs.accepted, hs.next]
      intro other hother
      rcases List.mem_append.mp hother with hother | hother
      · exact (h.numbered other hother).trans hgrow
      · rw [List.mem_singleton.mp hother, hs.seq]
        exact hgrow
    · rw [hs.next]
      exact min_le_right _ _

theorem shiftOf_cases (s : State P capacity) (a : Action P) :
    shiftOf s a = [] ∨ ∃ held, s.hand = .due held ∧ shiftOf s a = [held] := by
  cases hs : s.hand with
  | empty => exact Or.inl (by cases a <;> simp [shiftOf, hs])
  | deferred held => exact Or.inl (by cases a <;> simp [shiftOf, hs])
  | due held =>
    cases a with
    | apply data => exact Or.inr ⟨held, rfl, by simp [shiftOf, hs]⟩
    | commit => exact Or.inr ⟨held, rfl, by simp [shiftOf, hs]⟩
    | _ => exact Or.inl rfl

def Due.change (due : Due P) : Change ℕ (WithBot (WithBot ℕ)) :=
  CommandBasis.change due.seq due.basis

theorem held_earlier {s : State P capacity} (h : Based s) {held : Due P}
    (hs : s.hand = .due held) : FromEarlier (held.seq, held.basis) := by
  apply h.earlier
  have hhand : (held.seq, held.basis) ∈ s.hand.content Batch.basis := by
    rw [hs]
    exact Multiset.mem_singleton_self _
  simp only [inFlight, Multiset.mem_add]
  exact Or.inl (Or.inl (Or.inr hhand))

/-- What one step does to the ledger: at most one shift, of a current batch. -/
theorem shift_step {s : State P capacity} (h : Based s) (a : Action P) :
    Chained (view s.docket.ledger) ((shiftOf s a).map Due.change) ∧
      view (next s a).docket.ledger =
        ((shiftOf s a).map Due.change).foldl record (view s.docket.ledger) ∧
      ∀ c ∈ (shiftOf s a).map Due.change, BasisReplay.Forward c := by
  rw [next_ledger]
  rcases shiftOf_cases s a with hnone | ⟨held, hs, hone⟩
  · rw [hnone]
    exact ⟨trivial, rfl, fun c hc => absurd hc List.not_mem_nil⟩
  · rw [hone]
    have hcurrent := h.judged held hs
    refine ⟨⟨current_view.mpr hcurrent, trivial⟩, view_record hcurrent, ?_⟩
    intro c hc
    rw [List.map_singleton, List.mem_singleton] at hc
    rw [hc]
    exact forward_change (held_earlier h hs)

/-- The batches that shifted the ledger over a run, in order. -/
def shifts (s : State P capacity) (as : List (Action P)) : List (Due P) :=
  (machine Batch.basis).collect shiftOf s as

theorem shifts_run {s : State P capacity} {as : List (Action P)} (h : Based s)
    (hv : (machine Batch.basis).ValidTrace s as)
    (hn : (machine Batch.basis).Along NamesEarlier s as) :
    Chained (view s.docket.ledger) ((shifts s as).map Due.change) ∧
      view ((machine Batch.basis).runTrace s as).docket.ledger =
        ((shifts s as).map Due.change).foldl record (view s.docket.ledger) ∧
      ∀ c ∈ (shifts s as).map Due.change, BasisReplay.Forward c := by
  induction as generalizing s with
  | nil => exact ⟨trivial, rfl, fun c hc => absurd hc List.not_mem_nil⟩
  | cons a as ih =>
    obtain ⟨hchain, hledger, hforward⟩ := ih (next_based h hv.1 hn.1) hv.2 hn.2
    obtain ⟨hchain₁, hledger₁, hforward₁⟩ := shift_step h a
    have hshifts : shifts s (a :: as) = shiftOf s a ++ shifts (next s a) as := rfl
    rw [hshifts, List.map_append, List.foldl_append, ← hledger₁]
    refine ⟨?_, hledger, ?_⟩
    · apply BasisReplay.chained_append.mpr
      rw [← hledger₁]
      exact ⟨hchain₁, hchain⟩
    · intro c hc
      rcases List.mem_append.mp hc with hc | hc
      · exact hforward₁ c hc
      · exact hforward c hc

theorem run_based {s : State P capacity} {as : List (Action P)} (h : Based s)
    (hv : (machine Batch.basis).ValidTrace s as)
    (hn : (machine Batch.basis).Along NamesEarlier s as) :
    Based ((machine Batch.basis).runTrace s as) := by
  apply trace_invariant (I := Based) (G := NamesEarlier) _ h hv hn
  exact fun s a hi he hg => next_based hi he hg

theorem view_grows {s : State P capacity} {as : List (Action P)} (h : Based s)
    (hv : (machine Batch.basis).ValidTrace s as)
    (hn : (machine Batch.basis).Along NamesEarlier s as) :
    view s.docket.ledger ≤ view ((machine Batch.basis).runTrace s as).docket.ledger := by
  obtain ⟨hchain, hledger, hforward⟩ := shifts_run h hv hn
  rw [hledger]
  exact BasisReplay.le_foldl_record hchain hforward

theorem outdated_forever {s : State P capacity} {as : List (Action P)} (h : Based s)
    (hv : (machine Batch.basis).ValidTrace s as)
    (hn : (machine Batch.basis).Along NamesEarlier s as) {basis : List (P.Target × Option ℕ)}
    (hout : s.docket.ledger.outdates basis = true) :
    ((machine Batch.basis).runTrace s as).docket.ledger.isCurrent basis = false := by
  have hnot := ((outdated_view 0).mpr hout).not_current (view_grows h hv hn)
  exact Bool.eq_false_iff.mpr fun hc => hnot (current_view.mpr hc)

def lastShift (shifted : List (Due P)) (index : ℕ) : Option ℕ :=
  ((shifted.filter fun due => due.basis.any fun entry => P.index entry.1 = index).getLast?).map
    Due.seq

theorem lastStamp_change (shifted : List (Due P)) (index : ℕ) :
    lastStamp (shifted.map Due.change) index =
      (lastShift shifted index).map fun seq => mark (some (some seq)) := by
  have hfilter : (shifted.map Due.change).filter (fun c => index ∈ c.names) =
      (shifted.filter fun due => due.basis.any fun entry => P.index entry.1 = index).map
        Due.change := by
    rw [List.filter_map]
    apply congrArg (List.map Due.change)
    apply List.filter_congr
    intro due _
    apply Bool.eq_iff_iff.mpr
    simp only [Function.comp_apply, decide_eq_true_eq, Due.change, mem_names_change]
  rw [lastStamp, hfilter, List.getLast?_map, lastShift, Option.map_map, Option.map_map]
  rfl

theorem lastStamp_getD (shifted : List (Due P)) (index : ℕ) :
    (lastStamp (shifted.map Due.change) index).getD (mark (some none)) =
      mark (some (lastShift shifted index)) := by
  rw [lastStamp_change]
  cases lastShift shifted index <;> rfl

def Eager : Action P → Prop
  | .apply _ => True
  | .commit => True
  | .park => True
  | _ => False

def Shifts : Action P → Prop
  | .apply _ => True
  | .commit => True
  | _ => False

/-- The state with an answered batch waiting in the docket all the same. -/
def keep (s : State P capacity) (receipt : Receipt P) (when : When P.Clock) : State P capacity :=
  { s with docket := s.docket.insert { batch := receipt.batch, seq := receipt.seq, when := when } }

theorem keep_based {s : State P capacity} (h : Based s) {receipt : Receipt P}
    (hr : receipt ∈ s.replies) (when : When P.Clock) : Based (keep s receipt when) := by
  have htag : receipt.tag Batch.basis ∈ inFlight Batch.basis s := by
    simp only [inFlight, Multiset.mem_add]
    exact Or.inl (Or.inr (List.mem_map_of_mem hr))
  have hflight : inFlight Batch.basis (keep s receipt when) =
      receipt.tag Batch.basis ::ₘ inFlight Batch.basis s := by
    simp only [inFlight, keep, Docket.content_insert, Multiset.cons_add, Multiset.add_cons]
    rfl
  refine ⟨?_, h.numbered, h.bounded, ?_⟩
  · rw [hflight]
    intro tag hmem
    rcases Multiset.mem_cons.mp hmem with rfl | hmem
    · exact h.earlier _ htag
    · exact h.earlier tag hmem
  · intro held hheld
    show (s.docket.insert _).ledger.isCurrent held.basis = true
    rw [Docket.insert_ledger]
    exact h.judged held hheld

theorem eager_outdated {s : State P capacity} {a : Action P} (ha : Enabled Batch.basis s a)
    (he : Eager a) {receipt : Receipt P} (hr : receipt ∈ (next s a).replies)
    (hstale : receipt.outcome = .rejected .stale) :
    (next s a).docket.ledger.outdates receipt.batch.basis = true := by
  have rejected (d : Docket P) (h : receipt ∈ (rejectOutdated d).2) :
      (rejectOutdated d).1.ledger.outdates receipt.batch.basis = true := by
    rw [(rejectOutdated_spec d).2.1]
    exact ((rejectOutdated_spec d).1 receipt h).1
  cases a with
  | apply data =>
    obtain ⟨_, hdue, _⟩ := ha
    cases hs : s.hand with
    | due held =>
      simp only [next, answerDue, hs, State.take, Due.apply] at hr ⊢
      rcases List.mem_cons.mp hr with rfl | hr
      · cases hstale
      · exact rejected _ hr
    | empty => simp [State.holdsDue, hs] at hdue
    | deferred held => simp [State.holdsDue, hs] at hdue
  | commit =>
    obtain ⟨_, hdue, _⟩ := ha
    cases hs : s.hand with
    | due held =>
      simp only [next, answerDue, hs, State.take, Due.commit] at hr ⊢
      exact rejected _ hr
    | empty => simp [State.holdsDue, hs] at hdue
    | deferred held => simp [State.holdsDue, hs] at hdue
  | park =>
    obtain ⟨_, hdeferred, _⟩ := ha
    cases hs : s.hand with
    | deferred held =>
      simp only [next, answerDeferred, hs, State.take, Deferred.park] at hr ⊢
      split at hr
      · rename_i hout
        rw [if_pos hout]
        simp only [Deferred.answer, List.mem_singleton] at hr ⊢
        rw [hr]
        exact hout
      · cases hr
    | empty => simp [State.holdsDeferred, hs] at hdeferred
    | due held => simp [State.holdsDeferred, hs] at hdeferred
  | _ => exact he.elim

theorem shift_leaves_none {s : State P capacity} {a : Action P} (ha : Enabled Batch.basis s a)
    (hs : Shifts a) : ∀ sent ∈ (next s a).docket.schedule ++ (next s a).docket.arrived ++
      (next s a).docket.parked, (next s a).docket.ledger.outdates sent.batch.basis = false := by
  have clean (d : Docket P) : ∀ sent ∈ (rejectOutdated d).1.schedule ++
      (rejectOutdated d).1.arrived ++ (rejectOutdated d).1.parked,
      (rejectOutdated d).1.ledger.outdates sent.batch.basis = false := by
    rw [(rejectOutdated_spec d).2.1]
    exact rejectOutdated_none d
  cases a with
  | apply data =>
    obtain ⟨_, hdue, _⟩ := ha
    cases hhand : s.hand with
    | due held =>
      simp only [next, answerDue, hhand]
      exact clean _
    | empty => simp [State.holdsDue, hhand] at hdue
    | deferred held => simp [State.holdsDue, hhand] at hdue
  | commit =>
    obtain ⟨_, hdue, _⟩ := ha
    cases hhand : s.hand with
    | due held =>
      simp only [next, answerDue, hhand]
      exact clean _
    | empty => simp [State.holdsDue, hhand] at hdue
    | deferred held => simp [State.holdsDue, hhand] at hdue
  | _ => exact hs.elim

/-- The laws of one level's basis, in the state a run ends in. -/
structure BasisSound (targets : ℕ) (s : State P capacity) (shifted : List (Due P)) : Prop where
  /-- The batches that shifted a target form a chain, from none. -/
  chain : ∀ pre due post, shifted = pre ++ due :: post →
    ∀ entry ∈ due.basis, entry.2 = lastShift pre (P.index entry.1)
  ledger : ∀ index < targets, s.docket.ledger.last[index]? = some (lastShift shifted index)
  /-- A batch answered Stale ahead of its moment never becomes current, in no continuation: not
  of the state its answer leaves, nor of one where it waits on, nor of any with this ledger. -/
  exact_stale : ∀ a, Enabled Batch.basis s a → Eager a → ∀ receipt ∈ (next s a).replies,
    receipt.outcome = .rejected .stale →
      Based (next s a) ∧ (∀ when, Based (keep (next s a) receipt when)) ∧
      ∀ s' : State P capacity, Based s' → s'.docket.ledger = (next s a).docket.ledger →
        ∀ bs, (machine Batch.basis).ValidTrace s' bs →
          (machine Batch.basis).Along NamesEarlier s' bs →
          ((machine Batch.basis).runTrace s' bs).docket.ledger.isCurrent receipt.batch.basis =
            false
  no_outdated : ∀ a, Enabled Batch.basis s a → Shifts a →
    ∀ sent ∈ (next s a).docket.schedule ++ (next s a).docket.arrived ++ (next s a).docket.parked,
      (next s a).docket.ledger.outdates sent.batch.basis = false
  /-- A batch applies only on the ledger its basis names. -/
  current : ∀ a, Enabled Batch.basis s a → Shifts a → ∃ held, s.hand = .due held ∧
    ∀ entry ∈ held.basis, s.docket.ledger.last[P.index entry.1]? = some entry.2

theorem shifts_hold_due {s : State P capacity} {a : Action P} (ha : Enabled Batch.basis s a)
    (hs : Shifts a) : ∃ held, s.hand = .due held := by
  have hdue : s.holdsDue = true := by
    cases a with
    | apply data => exact ha.2.1
    | commit => exact ha.2.1
    | _ => exact hs.elim
  cases hhand : s.hand with
  | due held => exact ⟨held, rfl⟩
  | empty => simp [State.holdsDue, hhand] at hdue
  | deferred held => simp [State.holdsDue, hhand] at hdue

theorem eager_names_earlier {s : State P capacity} {a : Action P} (he : Eager a) :
    NamesEarlier s a := by
  cases a with
  | push => exact he.elim
  | _ => trivial

theorem entry_grows {s : State P capacity} {as : List (Action P)} (h : Based s)
    (hv : (machine Batch.basis).ValidTrace s as)
    (hn : (machine Batch.basis).Along NamesEarlier s as) {index seq : ℕ}
    (hentry : s.docket.ledger.last[index]? = some (some seq)) :
    ∃ later, ((machine Batch.basis).runTrace s as).docket.ledger.last[index]? =
      some (some later) ∧ seq ≤ later := by
  have hgrows := view_grows h hv hn index
  simp only [view, hentry] at hgrows
  rcases hlast : ((machine Batch.basis).runTrace s as).docket.ledger.last[index]? with
    _ | _ | later
  · simp [hlast, mark] at hgrows
  · simp [hlast, mark] at hgrows
  · refine ⟨later, rfl, ?_⟩
    simpa [hlast, mark] using hgrows

theorem foreign_notMem {L : ℕ → WithBot (WithBot ℕ)} (shifted : List (Due P))
    (hc : Chained L (shifted.map Due.change)) {index : ℕ} (h : L index = ⊥) :
    ∀ c ∈ shifted.map Due.change, index ∉ c.names := by
  apply BasisReplay.chained_notMem hc
  intro c hc e he
  obtain ⟨due, _, rfl⟩ := List.mem_map.mp hc
  obtain ⟨entry, _, rfl⟩ := List.mem_map.mp he
  rw [h]
  exact mark_some_ne_bot entry.2

theorem basis_sound (targets : ℕ) (as : List (Action P))
    (hv : (machine Batch.basis).ValidTrace (start targets : State P capacity) as)
    (hn : (machine Batch.basis).Along NamesEarlier (start targets : State P capacity) as) :
    BasisSound targets ((machine Batch.basis).runTrace (start targets : State P capacity) as)
        (shifts (start targets : State P capacity) as) ∧
      ∀ bs cs, as = bs ++ cs → ∀ index seq : ℕ,
        ((machine Batch.basis).runTrace (start targets : State P capacity) bs).docket.ledger.last[
          index]? = some (some seq) →
        ∃ later, ((machine Batch.basis).runTrace (start targets : State P capacity)
          as).docket.ledger.last[index]? = some (some later) ∧ seq ≤ later := by
  have hstart : Based (start targets : State P capacity) := start_based targets
  have hbased := run_based hstart hv hn
  obtain ⟨hchain, hledger, _⟩ := shifts_run hstart hv hn
  have hfirst : ∀ index < targets,
      view (start targets : State P capacity).docket.ledger index = mark (some none) := by
    intro index hindex
    simp [view, start, Docket.new, Ledger.new, hindex]
  refine ⟨⟨?_, ?_, ?_, ?_, ?_⟩, ?_⟩
  · intro pre due post hshifts entry hentry
    rw [hshifts, List.map_append, List.map_cons] at hchain
    have hmem : (P.index entry.1, mark (some entry.2)) ∈ (Due.change due).basis :=
      List.mem_map_of_mem hentry
    have hlink := BasisReplay.chain_links hchain hmem
    have hin : P.index entry.1 < targets := by
      by_contra hout
      have hbot : view (start targets : State P capacity).docket.ledger (P.index entry.1) = ⊥ := by
        simp [view, start, Docket.new, Ledger.new, hout, mark]
      apply foreign_notMem (pre ++ due :: post) (by simpa using hchain) hbot
        (Due.change due) (by simp)
      exact List.mem_map_of_mem hmem
    rw [hfirst _ hin, lastStamp_getD] at hlink
    exact Option.some.inj (mark_injective hlink)
  · intro index hindex
    have hview := congrFun hledger index
    rw [BasisReplay.foldl_record, hfirst index hindex, lastStamp_getD] at hview
    exact mark_injective hview
  · intro a ha he receipt hr hstale
    have hnext := next_based hbased ha (eager_names_earlier he)
    refine ⟨hnext, keep_based hnext hr, ?_⟩
    intro s' hs' hsame bs hbs hnames
    apply outdated_forever hs' hbs hnames
    rw [hsame]
    exact eager_outdated ha he hr hstale
  · exact fun a ha hs => shift_leaves_none ha hs
  · intro a ha hs
    obtain ⟨held, hheld⟩ := shifts_hold_due ha hs
    refine ⟨held, hheld, ?_⟩
    intro entry hentry
    exact of_decide_eq_true (List.all_eq_true.mp (hbased.judged held hheld) entry hentry)
  · rintro bs cs rfl index seq hentry
    obtain ⟨hvbs, hvcs⟩ := validTrace_append.mp hv
    obtain ⟨hnbs, hncs⟩ := along_append.mp hn
    rw [runTrace_append]
    exact entry_grows (run_based hstart hvbs hnbs) hvcs hncs hentry

/-- The first batch applies ahead of a second planned on nothing and a third planned on it. -/
def overtakenTrace : List (Action frameProtocol) :=
  [.enter .next ⟨[((), none)], [(7 : ℕ)]⟩, .push, .enter (.timed (100 : ℕ)) ⟨[((), none)], [(8 : ℕ)]⟩,
    .push, .enter (.timed (200 : ℕ)) ⟨[((), some 1)], [(9 : ℕ)]⟩, .push, .drain, .drain, .drain,
    .nextDue (0 : ℕ) 64, .apply ()]

theorem overtaken_names_earlier : (machine Batch.basis).Along NamesEarlier
    (start 1 : State frameProtocol 4) overtakenTrace := by
  have planned {s : State frameProtocol 4} {when : When ℕ} {command : ℕ} {last : Option ℕ}
      (hphase : s.phase = .admitted when ⟨[((), last)], [command]⟩)
      (hlast : ∀ m, last = some m → m ∈ s.accepted.map Sent.seq) : NamesEarlier s .push := by
    intro when' batch' hadmitted entry hentry m hm
    obtain ⟨_, hbatch⟩ := SenderPhase.admitted.inj (hphase.symm.trans hadmitted)
    rw [← hbatch] at hentry
    rw [List.mem_singleton.mp hentry] at hm
    exact hlast m hm
  refine ⟨trivial, planned rfl ?_, trivial, planned rfl ?_, trivial, planned rfl ?_, trivial,
    trivial, trivial, trivial, trivial, trivial⟩
  · exact fun m hm => by cases hm
  · exact fun m hm => by cases hm
  · intro m hm
    cases hm
    exact List.mem_cons_self

theorem basis_sound_overtaken :
    BasisSound 1 ((machine Batch.basis).runTrace (start 1 : State frameProtocol 4) overtakenTrace)
        (shifts (start 1 : State frameProtocol 4) overtakenTrace) ∧
      ((machine Batch.basis).runTrace (start 1 : State frameProtocol 4)
        overtakenTrace).replies.map Receipt.seq = [1, 2] := by
  refine ⟨(basis_sound 1 overtakenTrace ?_ overtaken_names_earlier).1, rfl⟩
  exact ⟨rfl, ⟨_, _, rfl⟩, rfl, ⟨_, _, rfl⟩, rfl, ⟨_, _, rfl⟩, ⟨Or.inl rfl, rfl, rfl⟩,
    ⟨Or.inl rfl, rfl, rfl⟩, ⟨Or.inl rfl, rfl, rfl⟩, ⟨rfl, rfl, rfl⟩, ⟨rfl, rfl, rfl⟩, trivial⟩

end CommandBasis

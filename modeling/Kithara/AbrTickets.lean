import Kithara.AbrDecision
import Kithara.TransitionSystem

/-! The intent of user, tick and reader over one state, in any order. A tick decides in one step
and lands its decision in a later one; commits and aborts take any claim, held or stale. Reads
of the claim change nothing and are no action. -/
namespace AbrTickets

open Abr TransitionSystem

structure AbrSystem where
  state : AbrState
  decided : List AbrDecision
  deriving DecidableEq

inductive Action where
  | setMode (mode : AbrMode)
  | requestTarget (target : VariantIndex) (reason : AbrReason)
  | retractThroughputPending (current : VariantIndex)
  | setMaxBandwidthBps (cap : Option ℕ)
  | lock
  | unlock
  | markEscape
  | clearEscape
  | commitPending (claim : PendingAbrDecision) (now : ℕ)
  | abortPending (ticket : AbrTicket)
  | decide (view : AbrView) (now : ℕ)
  | land (tick : ℕ)

def start (mode : AbrMode) (reference : ℕ) : AbrSystem := ⟨.newAt mode reference, []⟩

def next (s : AbrSystem) : Action → AbrSystem
  | .setMode mode => { s with state := s.state.setMode mode }
  | .requestTarget target reason => { s with state := s.state.requestTarget target reason }
  | .retractThroughputPending current =>
    { s with state := s.state.retractThroughputPending current }
  | .setMaxBandwidthBps cap => { s with state := s.state.setMaxBandwidthBps cap }
  | .lock => { s with state := s.state.lock }
  | .unlock => { s with state := s.state.unlock }
  | .markEscape => { s with state := s.state.markEscape }
  | .clearEscape => { s with state := s.state.clearEscape }
  | .commitPending claim now => { s with state := (s.state.commitPending claim now).1 }
  | .abortPending ticket => { s with state := (s.state.abortPending ticket).1 }
  | .decide view now => { s with decided := s.decided ++ [s.state.decide view now] }
  | .land tick =>
    match s.decided[tick]? with
    | none => s
    | some decision => ⟨s.state.land decision, s.decided.eraseIdx tick⟩

def machine : Machine AbrSystem Action where
  Enabled _ _ := True
  next := next

/-- What one operation does to the slot: keep it, empty it, or write it under the next ticket. -/
def SlotStep (slot slot' : PendingState) : Prop :=
  slot' = slot ∨ slot' = { slot with pending := none } ∨
    ∃ reason target, slot.mint reason target = some slot'

theorem mint_eq_some {slot slot' : PendingState} {reason : AbrReason} {target : VariantIndex} :
    slot.mint reason target = some slot' ↔ slot.nextTicket < PendingState.ticketMax ∧
      slot' = { pending := some ⟨reason, slot.nextTicket, target⟩
                nextTicket := slot.nextTicket + 1 } := by
  simp only [PendingState.mint]
  by_cases h : slot.nextTicket < PendingState.ticketMax
  · rw [if_pos h]
    simp [h, eq_comm]
  · rw [if_neg h]
    simp [h]

theorem mint_getD (slot : PendingState) (reason : AbrReason) (target : VariantIndex) :
    SlotStep slot ((slot.mint reason target).getD slot) := by
  cases h : slot.mint reason target with
  | none => exact Or.inl rfl
  | some slot' => exact Or.inr (Or.inr ⟨reason, target, h⟩)

theorem requestTarget_spec (s : AbrState) (target : VariantIndex) (reason : AbrReason) :
    s.requestTarget target reason = s ∨
      ((∀ i, s.mode = .manual i → i = target) ∧
        (∀ p, s.pending.pending = some p → p.target ≠ target) ∧
        ∃ slot, s.pending.mint reason target = some slot ∧
          s.requestTarget target reason = { s with pending := slot }) := by
  have hreplace : AbrState.requestTarget.replace target reason s = s ∨
      ((∀ p, s.pending.pending = some p → p.target ≠ target) ∧
        ∃ slot, s.pending.mint reason target = some slot ∧
          AbrState.requestTarget.replace target reason s = { s with pending := slot }) := by
    simp only [AbrState.requestTarget.replace]
    by_cases hany : s.pending.pending.any (fun p => p.target = target) = true
    · rw [if_pos hany]
      exact Or.inl rfl
    · rw [if_neg hany]
      cases hm : s.pending.mint reason target with
      | none => exact Or.inl rfl
      | some slot =>
        refine Or.inr ⟨?_, slot, rfl, rfl⟩
        intro p hp ht
        exact hany (by simp [hp, ht])
  simp only [AbrState.requestTarget]
  cases hmode : s.mode with
  | auto v =>
    rcases hreplace with h | ⟨hne, hslot⟩
    · exact Or.inl h
    · exact Or.inr ⟨fun i hi => (by cases hi), hne, hslot⟩
  | manual idx =>
    by_cases hidx : idx ≠ target
    · exact Or.inl (if_pos hidx)
    · simp only [if_neg hidx]
      rcases hreplace with h | ⟨hne, hslot⟩
      · exact Or.inl h
      · refine Or.inr ⟨?_, hne, hslot⟩
        intro i hi
        cases hi
        exact not_not.mp hidx

theorem setMode_spec (s : AbrState) (mode : AbrMode) :
    ∃ slot, s.setMode mode = { s with modeWord := mode.toWord, pending := slot } ∧
      SlotStep s.pending slot ∧ ∀ p, slot.pending = some p → mode = .manual p.target := by
  simp only [AbrState.setMode]
  refine ⟨_, rfl, ?_⟩
  cases mode with
  | auto v => exact ⟨Or.inr (Or.inl rfl), fun p hp => by cases hp⟩
  | manual target =>
    dsimp only
    cases hf : s.pending.pending.filter (fun p => p.target = target) with
    | none => exact ⟨Or.inr (Or.inl rfl), fun p hp => by cases hp⟩
    | some p =>
      obtain ⟨hp, ht⟩ := Option.filter_eq_some_iff.mp hf
      have ht : p.target = target := of_decide_eq_true ht
      dsimp only
      have hkeep : ∀ q, s.pending.pending = some q → AbrMode.manual target = .manual q.target := by
        intro q hq
        obtain rfl : p = q := Option.some.inj (hp.symm.trans hq)
        rw [ht]
      by_cases hr : p.reason = .manualOverride
      · rw [if_pos hr]
        exact ⟨Or.inl rfl, hkeep⟩
      · rw [if_neg hr]
        refine ⟨mint_getD _ _ _, ?_⟩
        cases hm : s.pending.mint .manualOverride p.target with
        | none => exact hkeep
        | some slot =>
          obtain ⟨_, rfl⟩ := mint_eq_some.mp hm
          intro q hq
          cases hq
          rw [ht]

theorem retractThroughputPending_spec (s : AbrState) (current : VariantIndex) :
    s.retractThroughputPending current = s ∨
      s.retractThroughputPending current =
        { s with pending := { s.pending with pending := none } } := by
  simp only [AbrState.retractThroughputPending]
  split
  · exact Or.inr rfl
  · exact Or.inl rfl

theorem abortPending_spec (s : AbrState) (ticket : AbrTicket) :
    (s.abortPending ticket).1 = s ∨
      (s.abortPending ticket).1 = { s with pending := { s.pending with pending := none } } := by
  simp only [AbrState.abortPending]
  cases s.pending.pending with
  | none => exact Or.inl rfl
  | some p =>
    by_cases h : p.ticket ≠ ticket
    · exact Or.inl (by simp [h])
    · exact Or.inr (by simp [h])

theorem land_spec (s : AbrState) (decision : AbrDecision) :
    s.land decision = s ∨ (∃ current, s.land decision = s.retractThroughputPending current) ∨
      (decision.changed = true ∧
        s.land decision = s.requestTarget decision.target decision.reason) := by
  cases decision with
  | stay current reason =>
    cases reason with
    | alreadyOptimal => exact Or.inr (Or.inl ⟨current, rfl⟩)
    | _ => exact Or.inl rfl
  | _ => exact Or.inr (Or.inr ⟨rfl, rfl⟩)

/-- What the pending operations do, commits aside: the mode or the slot changes, nothing else. -/
def Intends (s s' : AbrState) : Prop :=
  s'.currentVariant = s.currentVariant ∧ SlotStep s.pending s'.pending

theorem intends_refl (s : AbrState) : Intends s s := ⟨rfl, Or.inl rfl⟩

theorem intends_cleared (s : AbrState) :
    Intends s { s with pending := { s.pending with pending := none } } :=
  ⟨rfl, Or.inr (Or.inl rfl)⟩

theorem requestTarget_intends (s : AbrState) (target : VariantIndex) (reason : AbrReason) :
    Intends s (s.requestTarget target reason) := by
  rcases requestTarget_spec s target reason with h | ⟨_, _, slot, hm, h⟩
  · rw [h]
    exact intends_refl s
  · rw [h]
    exact ⟨rfl, Or.inr (Or.inr ⟨reason, target, hm⟩)⟩

theorem retract_intends (s : AbrState) (current : VariantIndex) :
    Intends s (s.retractThroughputPending current) := by
  rcases retractThroughputPending_spec s current with h | h
  · rw [h]
    exact intends_refl s
  · rw [h]
    exact intends_cleared s

theorem land_intends (s : AbrState) (decision : AbrDecision) :
    Intends s (s.land decision) := by
  rcases land_spec s decision with h | ⟨current, h⟩ | ⟨_, h⟩
  · rw [h]
    exact intends_refl s
  · rw [h]
    exact retract_intends s current
  · rw [h]
    exact requestTarget_intends s _ _

/-- A commit that takes effect, at the state it is called in. -/
def Commits (s : AbrState) (claim : PendingAbrDecision) (now : ℕ) : Prop :=
  (s.commitPending claim now).2 = true

/-- Every step keeps the current variant and moves the slot, or is a commit that takes effect. -/
theorem next_cases (s : AbrSystem) (a : Action) :
    Intends s.state (next s a).state ∨
      ∃ claim now, a = .commitPending claim now ∧ Commits s.state claim now := by
  cases a with
  | setMode mode =>
    obtain ⟨slot, h, hslot, _⟩ := setMode_spec s.state mode
    refine Or.inl ?_
    show Intends s.state (s.state.setMode mode)
    rw [h]
    exact ⟨rfl, hslot⟩
  | requestTarget target reason => exact Or.inl (requestTarget_intends s.state target reason)
  | retractThroughputPending current => exact Or.inl (retract_intends s.state current)
  | setMaxBandwidthBps cap => exact Or.inl ⟨rfl, Or.inl rfl⟩
  | lock => exact Or.inl ⟨rfl, Or.inl rfl⟩
  | unlock => exact Or.inl ⟨rfl, Or.inl rfl⟩
  | markEscape => exact Or.inl ⟨rfl, Or.inl rfl⟩
  | clearEscape => exact Or.inl ⟨rfl, Or.inl rfl⟩
  | commitPending claim now =>
    by_cases hc : Commits s.state claim now
    · exact Or.inr ⟨claim, now, rfl, hc⟩
    · refine Or.inl ?_
      show Intends s.state (s.state.commitPending claim now).1
      rw [AbrState.commitPending_refused (Bool.eq_false_iff.mpr hc)]
      exact intends_refl _
  | abortPending ticket =>
    refine Or.inl ?_
    show Intends s.state (s.state.abortPending ticket).1
    rcases abortPending_spec s.state ticket with h | h
    · rw [h]
      exact intends_refl _
    · rw [h]
      exact intends_cleared _
  | decide view now => exact Or.inl (intends_refl _)
  | land tick =>
    refine Or.inl ?_
    show Intends s.state (next s (.land tick)).state
    unfold next
    dsimp only
    cases s.decided[tick]? with
    | none => exact intends_refl _
    | some decision => exact land_intends _ _

theorem next_slot (s : AbrSystem) (a : Action) :
    SlotStep s.state.pending (next s a).state.pending := by
  rcases next_cases s a with h | ⟨claim, now, rfl, hc⟩
  · exact h.2
  · exact Or.inr (Or.inl (AbrState.commitPending_accepted hc).2.1)

/-- A pinned mode admits only its own target into the slot. -/
def Pinned (s : AbrState) : Prop :=
  ∀ i, s.mode = .manual i → ∀ p, s.pending.pending = some p → p.target = i

theorem pinned_of_slot {s s' : AbrState} (h : Pinned s) (hw : s'.modeWord = s.modeWord)
    (hs : s'.pending = s.pending ∨ s'.pending = { s.pending with pending := none }) :
    Pinned s' := by
  intro i hi p hp
  have hmode : s.mode = .manual i := by
    rw [AbrState.mode, ← hw]
    exact hi
  rcases hs with hs | hs
  · exact h i hmode p (by rw [← hs]; exact hp)
  · rw [hs] at hp
    cases hp

theorem setMode_pinned (s : AbrState) (mode : AbrMode) : Pinned (s.setMode mode) := by
  obtain ⟨slot, h, _, hpin⟩ := setMode_spec s mode
  rw [h]
  intro i hi p hp
  have hm : mode = .manual p.target := hpin p hp
  subst hm
  exact AbrMode.ofWord_manual hi

theorem requestTarget_pinned {s : AbrState} (h : Pinned s) (target : VariantIndex)
    (reason : AbrReason) : Pinned (s.requestTarget target reason) := by
  rcases requestTarget_spec s target reason with he | ⟨hpin, _, slot, hm, he⟩
  · rw [he]
    exact h
  · rw [he]
    obtain ⟨_, rfl⟩ := mint_eq_some.mp hm
    intro i hi p hp
    cases hp
    exact (hpin i hi).symm

theorem retract_pinned {s : AbrState} (h : Pinned s) (current : VariantIndex) :
    Pinned (s.retractThroughputPending current) := by
  rcases retractThroughputPending_spec s current with he | he
  · rw [he]
    exact h
  · rw [he]
    exact pinned_of_slot h rfl (Or.inr rfl)

theorem next_pinned {s : AbrSystem} (h : Pinned s.state) (a : Action) :
    Pinned (next s a).state := by
  cases a with
  | setMode mode => exact setMode_pinned s.state mode
  | requestTarget target reason => exact requestTarget_pinned h target reason
  | retractThroughputPending current => exact retract_pinned h current
  | setMaxBandwidthBps cap => exact pinned_of_slot h rfl (Or.inl rfl)
  | lock => exact pinned_of_slot h rfl (Or.inl rfl)
  | unlock => exact pinned_of_slot h rfl (Or.inl rfl)
  | markEscape => exact pinned_of_slot h rfl (Or.inl rfl)
  | clearEscape => exact pinned_of_slot h rfl (Or.inl rfl)
  | commitPending claim now =>
    show Pinned (s.state.commitPending claim now).1
    by_cases hc : Commits s.state claim now
    · obtain ⟨_, hslot, hword⟩ := AbrState.commitPending_accepted hc
      exact pinned_of_slot h hword (Or.inr hslot)
    · rw [AbrState.commitPending_refused (Bool.eq_false_iff.mpr hc)]
      exact h
  | abortPending ticket =>
    show Pinned (s.state.abortPending ticket).1
    rcases abortPending_spec s.state ticket with he | he
    · rw [he]
      exact h
    · rw [he]
      exact pinned_of_slot h rfl (Or.inr rfl)
  | decide view now => exact h
  | land tick =>
    show Pinned (next s (.land tick)).state
    unfold next
    dsimp only
    cases s.decided[tick]? with
    | none => exact h
    | some decision =>
      show Pinned (s.state.land decision)
      rcases land_spec s.state decision with he | ⟨current, he⟩ | ⟨_, he⟩
      · rw [he]
        exact h
      · rw [he]
        exact retract_pinned h current
      · rw [he]
        exact requestTarget_pinned h _ _

theorem reachable_run (s : AbrSystem) (as : List Action) :
    machine.Reachable s (machine.runTrace s as) :=
  ⟨as, valid_of_unguarded (fun _ _ => trivial) _ _, rfl⟩

theorem run_pinned (mode : AbrMode) (reference : ℕ) (as : List Action) :
    Pinned (machine.runTrace (start mode reference) as).state := by
  refine reachable_invariant (M := machine) (I := fun s => Pinned s.state)
    (fun s a h _ => next_pinned h a) ?_ (reachable_run (start mode reference) as)
  intro i _ p hp
  cases hp

/-- Tickets below the counter are spent: each was minted once, the pending one included. -/
def Minted (slot : PendingState) : Prop :=
  ∀ p, slot.pending = some p → p.ticket < slot.nextTicket

/-- The ticket was minted and names no pending intent any more. -/
def Retired (ticket : AbrTicket) (slot : PendingState) : Prop :=
  ticket < slot.nextTicket ∧ ∀ p, slot.pending = some p → p.ticket ≠ ticket

theorem slotStep_minted {slot slot' : PendingState} (h : Minted slot) (hs : SlotStep slot slot') :
    Minted slot' := by
  rcases hs with rfl | rfl | ⟨reason, target, hm⟩
  · exact h
  · intro p hp
    cases hp
  · obtain ⟨_, rfl⟩ := mint_eq_some.mp hm
    intro p hp
    cases hp
    exact Nat.lt_succ_self _

theorem slotStep_mono {slot slot' : PendingState} (hs : SlotStep slot slot') :
    slot.nextTicket ≤ slot'.nextTicket := by
  rcases hs with rfl | rfl | ⟨reason, target, hm⟩
  · exact le_rfl
  · exact le_rfl
  · obtain ⟨_, rfl⟩ := mint_eq_some.mp hm
    exact Nat.le_succ _

theorem slotStep_writes {slot slot' : PendingState} (hs : SlotStep slot slot') {p : PendingApply}
    (hp : slot'.pending = some p) (hne : slot.pending ≠ some p) :
    p.ticket = slot.nextTicket := by
  rcases hs with rfl | rfl | ⟨reason, target, hm⟩
  · exact absurd hp hne
  · cases hp
  · obtain ⟨_, rfl⟩ := mint_eq_some.mp hm
    cases hp
    rfl

theorem slotStep_retired {ticket : AbrTicket} {slot slot' : PendingState}
    (h : Retired ticket slot) (hs : SlotStep slot slot') : Retired ticket slot' := by
  refine ⟨lt_of_lt_of_le h.1 (slotStep_mono hs), ?_⟩
  intro p hp
  by_cases hold : slot.pending = some p
  · exact h.2 p hold
  · have hnew := slotStep_writes hs hp hold
    rw [hnew]
    exact h.1.ne'

theorem run_minted (mode : AbrMode) (reference : ℕ) (as : List Action) :
    Minted (machine.runTrace (start mode reference) as).state.pending := by
  refine reachable_invariant (M := machine) (I := fun s => Minted s.state.pending)
    (fun s a h _ => slotStep_minted h (next_slot s a)) ?_ (reachable_run (start mode reference) as)
  intro p hp
  cases hp

theorem run_mono (s : AbrSystem) (as : List Action) :
    s.state.pending.nextTicket ≤ (machine.runTrace s as).state.pending.nextTicket := by
  induction as generalizing s with
  | nil => exact le_rfl
  | cons a as ih => exact le_trans (slotStep_mono (next_slot s a)) (ih (next s a))

theorem run_retired {ticket : AbrTicket} {s : AbrSystem} (h : Retired ticket s.state.pending)
    (as : List Action) : Retired ticket (machine.runTrace s as).state.pending :=
  reachable_invariant (M := machine) (I := fun s => Retired ticket s.state.pending)
    (fun s a h _ => slotStep_retired h (next_slot s a)) h (reachable_run s as)

theorem commits_pending {s : AbrState} {claim : PendingAbrDecision} {now : ℕ}
    (h : Commits s claim now) : ∃ p, s.pending.pending = some p ∧ p.ticket = claim.ticket ∧
      p.target = claim.decision.target := by
  obtain ⟨_, p, hp, ht, hd⟩ := AbrState.commitPending_iff.mp h
  refine ⟨p, hp, ht, ?_⟩
  rw [← hd, pendingDecision_target]

/-- The laws of the ticket over every run from `s`. -/
structure TicketProtocol (s : AbrSystem) : Prop where
  /-- An intent newly in the slot has a ticket that no earlier intent had. -/
  fresh : ∀ as a p, (machine.runTrace s (as ++ [a])).state.pending.pending = some p →
    (machine.runTrace s as).state.pending.pending ≠ some p →
    ∀ bs, bs <+: as → ∀ q, (machine.runTrace s bs).state.pending.pending = some q →
      q.ticket ≠ p.ticket
  stale : ∀ as claim now,
    (∀ p, (machine.runTrace s as).state.pending.pending = some p → p.ticket ≠ claim.ticket) →
    (machine.runTrace s as).state.commitPending claim now =
        ((machine.runTrace s as).state, false) ∧
      (machine.runTrace s as).state.abortPending claim.ticket =
        ((machine.runTrace s as).state, false)
  once : ∀ as claim now bs claim' now', Commits (machine.runTrace s as).state claim now →
    claim'.ticket = claim.ticket →
    ¬ Commits (machine.runTrace s (as ++ .commitPending claim now :: bs)).state claim' now'
  published : ∀ as a, (machine.runTrace s (as ++ [a])).state.currentVariant ≠
      (machine.runTrace s as).state.currentVariant →
    ∃ claim now, a = .commitPending claim now ∧ Commits (machine.runTrace s as).state claim now ∧
      (machine.runTrace s (as ++ [a])).state.currentVariant = claim.decision.target
  gated : ∀ as claim now, (machine.runTrace s as).state.isLocked = true →
    (machine.runTrace s as).state.commitPending claim now = ((machine.runTrace s as).state, false)
  pinned : ∀ as i, (machine.runTrace s as).state.mode = .manual i →
    (∀ p, (machine.runTrace s as).state.pending.pending = some p → p.target = i) ∧
      ∀ claim now, Commits (machine.runTrace s as).state claim now →
        ((machine.runTrace s as).state.commitPending claim now).1.currentVariant = i

theorem ticket_protocol (mode : AbrMode) (reference : ℕ) :
    TicketProtocol (start mode reference) := by
  constructor
  · intro as a p hp hne bs hbs q hq
    obtain ⟨cs, rfl⟩ := hbs
    rw [runTrace_append] at hp
    have hnew := slotStep_writes (next_slot _ a) hp hne
    have hold := run_minted mode reference bs q hq
    have hgrow := run_mono (machine.runTrace (start mode reference) bs) cs
    rw [← runTrace_append] at hgrow
    exact (lt_of_lt_of_le hold (hgrow.trans hnew.ge)).ne
  · intro as claim now hstale
    refine ⟨AbrState.commitPending_refused (Bool.eq_false_iff.mpr ?_),
      AbrState.abortPending_refused hstale⟩
    intro hc
    obtain ⟨p, hp, ht, _⟩ := commits_pending hc
    exact hstale p hp ht
  · intro as claim now bs claim' now' hc ht hc'
    obtain ⟨p, hp, hpt, _⟩ := commits_pending hc
    have hslot := (AbrState.commitPending_accepted hc).2.1
    have hret : Retired claim.ticket
        (next (machine.runTrace (start mode reference) as) (.commitPending claim now)).state.pending := by
      show Retired claim.ticket (AbrState.commitPending _ claim now).1.pending
      rw [hslot]
      refine ⟨?_, fun q hq => by cases hq⟩
      rw [← hpt]
      exact run_minted mode reference as p hp
    obtain ⟨q, hq, hqt, _⟩ := commits_pending hc'
    rw [runTrace_append] at hq
    exact (run_retired hret bs).2 q hq (hqt.trans ht)
  · intro as a hne
    rw [runTrace_append] at hne ⊢
    rcases next_cases (machine.runTrace (start mode reference) as) a with
      hkeep | ⟨claim, now, rfl, hc⟩
    · exact absurd hkeep.1 hne
    · exact ⟨claim, now, rfl, hc, (AbrState.commitPending_accepted hc).1⟩
  · intro as claim now hl
    apply AbrState.commitPending_refused
    rw [Bool.eq_false_iff]
    intro hc
    exact absurd (hl.symm.trans (AbrState.commitPending_iff.mp hc).1) (by decide)
  · intro as i hi
    have hpin := run_pinned mode reference as i hi
    refine ⟨hpin, ?_⟩
    intro claim now hc
    obtain ⟨p, hp, _, ht⟩ := commits_pending hc
    rw [(AbrState.commitPending_accepted hc).1, ← ht]
    exact hpin p hp

end AbrTickets

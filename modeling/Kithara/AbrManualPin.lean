import Kithara.AbrTickets

/-! Leaving the manual mode empties the slot of the pin, but a tick that decided under the pin
may still land. The pin stays cancelled exactly while no such landing reaches a free slot. -/
namespace AbrManualPin

open Abr TransitionSystem AbrTickets

/-- Ticks and the user drive the intent: manual targets come from decisions alone, and user
modes pass the assertion of the packing. -/
def Driven : Action → Prop
  | .requestTarget _ reason => reason ≠ .manualOverride
  | .setMode mode => mode.Packable
  | _ => True

def drivenMachine : Machine AbrSystem Action where
  Enabled _ a := Driven a
  next := next

structure PinCancelled (s : AbrState) : Prop where
  pending : ∀ v, s.mode = .auto v → ∀ p, s.pending.pending = some p → p.reason ≠ .manualOverride
  claimed : ∀ v, s.mode = .auto v → ∀ current claim,
    s.pendingClaim current = .ready claim ∨ s.pendingClaim current = .locked claim →
    claim.decision.reason ≠ .manualOverride
  committed : ∀ v, s.mode = .auto v → ∀ claim now, Commits s claim now →
    claim.decision.reason ≠ .manualOverride

/-- The step does not land a manual switch on an automatic mode, unless the slot already holds
that target or no ticket is left for it. -/
def LandsPinned (s : AbrSystem) : Action → Prop
  | .land tick => ∀ decision v, s.decided[tick]? = some decision → decision.changed = true →
      decision.reason = .manualOverride → s.state.mode = .auto v →
      (∃ p, s.state.pending.pending = some p ∧ p.target = decision.target) ∨
        PendingState.ticketMax ≤ s.state.pending.nextTicket
  | _ => True

theorem pendingClaim_reason {s : AbrState} {current : VariantIndex} {claim : PendingAbrDecision}
    (h : s.pendingClaim current = .ready claim ∨ s.pendingClaim current = .locked claim) :
    ∃ p, s.pending.pending = some p ∧ p.reason = claim.decision.reason := by
  simp only [AbrState.pendingClaim] at h
  cases hp : s.pending.pending with
  | none =>
    rw [hp] at h
    rcases h with h | h <;> cases h
  | some p =>
    refine ⟨p, rfl, ?_⟩
    simp only [hp] at h
    by_cases ht : p.target = current
    · simp only [if_pos ht] at h
      rcases h with h | h <;> cases h
    · simp only [if_neg ht] at h
      cases hl : s.isLocked with
      | true =>
        simp only [hl, if_true] at h
        rcases h with h | h
        · cases h
        · cases h
          exact (pendingDecision_reason _ _ _).symm
      | false =>
        simp only [hl, Bool.false_eq_true, if_false] at h
        rcases h with h | h
        · cases h
          exact (pendingDecision_reason _ _ _).symm
        · cases h

theorem pinCancelled_iff {s : AbrState} : PinCancelled s ↔
    ∀ v, s.mode = .auto v → ∀ p, s.pending.pending = some p → p.reason ≠ .manualOverride := by
  constructor
  · exact PinCancelled.pending
  · intro h
    refine ⟨h, ?_, ?_⟩
    · intro v hv current claim hclaim
      obtain ⟨p, hp, hr⟩ := pendingClaim_reason hclaim
      rw [← hr]
      exact h v hv p hp
    · intro v hv claim now hc
      obtain ⟨_, p, hp, _, hd⟩ := AbrState.commitPending_iff.mp hc
      rw [← hd, pendingDecision_reason]
      exact h v hv p hp

theorem pinCancelled_of_slot {s s' : AbrState} (h : PinCancelled s)
    (hw : s'.modeWord = s.modeWord)
    (hs : s'.pending = s.pending ∨ s'.pending = { s.pending with pending := none }) :
    PinCancelled s' := by
  refine pinCancelled_iff.mpr ?_
  intro v hv p hp
  have hmode : s.mode = .auto v := by
    rw [AbrState.mode, ← hw]
    exact hv
  rcases hs with hs | hs
  · exact h.pending v hmode p (by rw [← hs]; exact hp)
  · rw [hs] at hp
    cases hp

theorem setMode_pinCancelled (s : AbrState) {mode : AbrMode} (hm : mode.Packable) :
    PinCancelled (s.setMode mode) := by
  obtain ⟨slot, h, _, hpin⟩ := setMode_spec s mode
  refine pinCancelled_iff.mpr ?_
  rw [h]
  intro v hv p hp
  have hback : mode = .auto v := (AbrMode.ofWord_toWord hm).symm.trans hv
  rw [hpin p hp] at hback
  cases hback

theorem requestTarget_pinCancelled_iff {s : AbrState} (h : PinCancelled s)
    (target : VariantIndex) (reason : AbrReason) :
    PinCancelled (s.requestTarget target reason) ↔
      ∀ v, reason = .manualOverride → s.mode = .auto v →
        (∃ p, s.pending.pending = some p ∧ p.target = target) ∨
          PendingState.ticketMax ≤ s.pending.nextTicket := by
  constructor
  · intro hkeep v hr hv
    by_contra hfree
    obtain ⟨hslot, hticket⟩ := not_or.mp hfree
    have hany : ¬ s.pending.pending.any (fun p => p.target = target) = true := by
      intro hany
      cases hp : s.pending.pending with
      | none =>
        rw [hp] at hany
        cases hany
      | some p =>
        rw [hp] at hany
        exact hslot ⟨p, hp, of_decide_eq_true hany⟩
    have hmint : s.pending.mint reason target = some
        { pending := some ⟨reason, s.pending.nextTicket, target⟩
          nextTicket := s.pending.nextTicket + 1 } := mint_eq_some.mpr ⟨not_le.mp hticket, rfl⟩
    have hwrite : s.requestTarget target reason =
        { s with pending := { pending := some ⟨reason, s.pending.nextTicket, target⟩
                              nextTicket := s.pending.nextTicket + 1 } } := by
      simp only [AbrState.requestTarget, hv, AbrState.requestTarget.replace, if_neg hany, hmint,
        Option.getD_some]
    rw [hwrite] at hkeep
    exact hkeep.pending v hv _ rfl hr
  · intro hfree
    rcases requestTarget_spec s target reason with he | ⟨_, hne, slot, hm, he⟩
    · rw [he]
      exact h
    · obtain ⟨hticket, rfl⟩ := mint_eq_some.mp hm
      rw [he]
      refine pinCancelled_iff.mpr ?_
      intro v hv p hp hr
      cases hp
      rcases hfree v hr hv with ⟨q, hq, ht⟩ | hle
      · exact hne q hq ht
      · exact absurd hticket (not_lt.mpr hle)

theorem retract_pinCancelled {s : AbrState} (h : PinCancelled s) (current : VariantIndex) :
    PinCancelled (s.retractThroughputPending current) := by
  rcases retractThroughputPending_spec s current with he | he
  · rw [he]
    exact h
  · rw [he]
    exact pinCancelled_of_slot h rfl (Or.inr rfl)

theorem land_pinCancelled_iff {s : AbrState} (h : PinCancelled s) (decision : AbrDecision) :
    PinCancelled (s.land decision) ↔
      ∀ v, decision.changed = true → decision.reason = .manualOverride → s.mode = .auto v →
        (∃ p, s.pending.pending = some p ∧ p.target = decision.target) ∨
          PendingState.ticketMax ≤ s.pending.nextTicket := by
  by_cases hc : decision.changed = true
  · have hland : s.land decision = s.requestTarget decision.target decision.reason := by
      cases decision with
      | stay current reason => cases hc
      | _ => rfl
    rw [hland, requestTarget_pinCancelled_iff h]
    exact ⟨fun hall v _ hr hv => hall v hr hv, fun hall v hr hv => hall v hc hr hv⟩
  · refine ⟨fun _ v hchanged => absurd hchanged hc, fun _ => ?_⟩
    rcases land_spec s decision with he | ⟨current, he⟩ | ⟨hchanged, _⟩
    · rw [he]
      exact h
    · rw [he]
      exact retract_pinCancelled h current
    · exact absurd hchanged hc

theorem next_pinCancelled_iff {s : AbrSystem} (h : PinCancelled s.state) {a : Action}
    (ha : Driven a) : PinCancelled (next s a).state ↔ LandsPinned s a := by
  have always (hp : PinCancelled (next s a).state) (hl : LandsPinned s a) :
      PinCancelled (next s a).state ↔ LandsPinned s a := ⟨fun _ => hl, fun _ => hp⟩
  cases a with
  | setMode mode => exact always (setMode_pinCancelled s.state ha) trivial
  | requestTarget target reason =>
    refine always ((requestTarget_pinCancelled_iff h target reason).mpr ?_) trivial
    intro v hr
    exact absurd hr ha
  | retractThroughputPending current => exact always (retract_pinCancelled h current) trivial
  | setMaxBandwidthBps cap => exact always (pinCancelled_of_slot h rfl (Or.inl rfl)) trivial
  | lock => exact always (pinCancelled_of_slot h rfl (Or.inl rfl)) trivial
  | unlock => exact always (pinCancelled_of_slot h rfl (Or.inl rfl)) trivial
  | markEscape => exact always (pinCancelled_of_slot h rfl (Or.inl rfl)) trivial
  | clearEscape => exact always (pinCancelled_of_slot h rfl (Or.inl rfl)) trivial
  | commitPending claim now =>
    refine always ?_ trivial
    show PinCancelled (s.state.commitPending claim now).1
    by_cases hc : Commits s.state claim now
    · obtain ⟨_, hslot, hword⟩ := AbrState.commitPending_accepted hc
      exact pinCancelled_of_slot h hword (Or.inr hslot)
    · rw [AbrState.commitPending_refused (Bool.eq_false_iff.mpr hc)]
      exact h
  | abortPending ticket =>
    refine always ?_ trivial
    show PinCancelled (s.state.abortPending ticket).1
    rcases abortPending_spec s.state ticket with he | he
    · rw [he]
      exact h
    · rw [he]
      exact pinCancelled_of_slot h rfl (Or.inr rfl)
  | decide view now => exact always h trivial
  | land tick =>
    cases hd : s.decided[tick]? with
    | none =>
      have hstay : next s (.land tick) = s := by simp only [next, hd]
      rw [hstay]
      refine ⟨fun _ decision v he => ?_, fun _ => h⟩
      rw [hd] at he
      cases he
    | some decision =>
      have hland : (next s (.land tick)).state = s.state.land decision := by simp only [next, hd]
      rw [hland, land_pinCancelled_iff h]
      constructor
      · intro hall decision' v he hc hr hv
        obtain rfl : decision = decision' := Option.some.inj (hd.symm.trans he)
        exact hall v hc hr hv
      · intro hall v hc hr hv
        exact hall decision v hd hc hr hv

theorem start_pinCancelled (mode : AbrMode) (reference : ℕ) :
    PinCancelled (start mode reference).state :=
  pinCancelled_iff.mpr fun _ _ p hp => by cases hp

/-- In every run the pin stays cancelled exactly if no decision taken under a pin lands on an
automatic mode with the slot free for it. -/
theorem pin_cancelled_iff_lands_pinned (mode : AbrMode) (reference : ℕ) (as : List Action)
    (h : drivenMachine.ValidTrace (start mode reference) as) :
    drivenMachine.Throughout (fun s => PinCancelled s.state) (start mode reference) as ↔
      drivenMachine.Along LandsPinned (start mode reference) as :=
  throughout_iff_along (M := drivenMachine) (J := fun _ => True) (fun _ _ _ _ => trivial)
    (fun _ _ _ hp ha => next_pinCancelled_iff hp ha) trivial (start_pinCancelled mode reference) h

def idleView : AbrView where
  settings :=
    { minBufferForUpSwitch := 0
      minSwitchInterval := 0
      urgentDownswitchBuffer := 0
      maxBandwidthBps := none
      downHysteresisRatio := 1
      throughputSafetyFactor := 1
      upHysteresisRatio := 1 }
  variants := []
  bufferAhead := none
  estimateBps := none

/-- The pin lands while the mode still holds it, and the user's return cancels it. -/
theorem pin_cancelled_timely_landing :
    drivenMachine.ValidTrace (start (.auto none) 0)
        [.setMode (.manual 1), .decide idleView 5, .land 0, .setMode (.auto none)] ∧
      drivenMachine.Throughout (fun s => PinCancelled s.state) (start (.auto none) 0)
        [.setMode (.manual 1), .decide idleView 5, .land 0, .setMode (.auto none)] := by
  have hv : drivenMachine.ValidTrace (start (.auto none) 0)
      [.setMode (.manual 1), .decide idleView 5, .land 0, .setMode (.auto none)] :=
    ⟨(by decide : AbrMode.Packable (.manual 1)), trivial, trivial, trivial, trivial⟩
  refine ⟨hv, (pin_cancelled_iff_lands_pinned _ _ _ hv).mpr ⟨trivial, trivial, ?_, trivial, trivial⟩⟩
  intro decision v _ _ _ hmode
  cases hmode

/-- A tick decides under the pin, the user returns to automatic mode, and the decision lands:
the cancelled pin is pending again and a commit publishes it. -/
theorem stale_landing_restores_pin :
    drivenMachine.ValidTrace (start (.auto none) 0)
        [.setMode (.manual 1), .decide idleView 5, .setMode (.auto none), .land 0] ∧
      ¬ drivenMachine.Throughout (fun s => PinCancelled s.state) (start (.auto none) 0)
        [.setMode (.manual 1), .decide idleView 5, .setMode (.auto none), .land 0] ∧
      (drivenMachine.runTrace (start (.auto none) 0)
        [.setMode (.manual 1), .decide idleView 5, .setMode (.auto none), .land 0,
          .commitPending ⟨.manual 0 1, 1⟩ 7]).state.currentVariant = 1 := by
  refine ⟨⟨(by decide : AbrMode.Packable (.manual 1)), trivial, trivial, trivial, trivial⟩, ?_, ?_⟩
  · rintro ⟨_, _, _, _, hlast⟩
    exact hlast.pending none (by decide) ⟨.manualOverride, 1, 1⟩ (by decide) rfl
  · decide

end AbrManualPin

import Mathlib.Algebra.Group.Nat.Defs
import Mathlib.Data.Nat.Notation
import Mathlib.Tactic.Common

/-! The per-peer ABR state of the adaptive streamer: the mode packed into one word, the lock
count, and the boundary slot whose tickets identify one transition attempt each. Instants and
durations are nanoseconds; the escape flag is the only bit of the flag byte in use. -/
namespace Abr

/-- A variant position as the platform's 64-bit word. -/
abbrev VariantIndex := UInt64

inductive AbrReason where
  | initial
  | manualOverride
  | upSwitch
  | downSwitch
  | minInterval
  | noEstimate
  | bufferTooLowForUpSwitch
  | urgentDownSwitch
  | escapeStalled
  | alreadyOptimal
  | locked
  deriving DecidableEq, Repr

inductive AbrMode where
  | auto (initial : Option VariantIndex)
  | manual (pinned : VariantIndex)
  deriving DecidableEq, Repr

inductive AbrDecision where
  | stay (current : VariantIndex) (reason : AbrReason)
  | upSwitch (source target : VariantIndex) (reason : AbrReason)
  | downSwitch (source target : VariantIndex) (reason : AbrReason)
  | manual (source target : VariantIndex)
  deriving DecidableEq, Repr

namespace AbrDecision

def changed : AbrDecision → Bool
  | .stay _ _ => false
  | _ => true

def reason : AbrDecision → AbrReason
  | .stay _ reason => reason
  | .upSwitch _ _ reason => reason
  | .downSwitch _ _ reason => reason
  | .manual _ _ => .manualOverride

def target : AbrDecision → VariantIndex
  | .stay current _ => current
  | .upSwitch _ target _ => target
  | .downSwitch _ target _ => target
  | .manual _ target => target

end AbrDecision

namespace AbrMode

def wordMax : UInt64 := 0xFFFFFFFFFFFFFFFF

/-- Half the word's range: smaller words are manual pins. -/
def autoThreshold : UInt64 := 0x7FFFFFFFFFFFFFFF

/-- What the packing asserts about the index it stores. -/
def Packable : AbrMode → Prop
  | .auto none => True
  | .auto (some v) => v < autoThreshold
  | .manual v => v < autoThreshold

instance (m : AbrMode) : Decidable m.Packable := by
  rcases m with (_ | v) | v <;> simp only [Packable] <;> infer_instance

def toWord : AbrMode → UInt64
  | .manual v => v
  | .auto none => wordMax
  | .auto (some v) => wordMax - 1 - v

def ofWord (word : UInt64) : AbrMode :=
  if word = wordMax then .auto none
  else if word ≥ autoThreshold then .auto (some (wordMax - 1 - word))
  else .manual word

theorem ofWord_manual {word i : UInt64} (h : ofWord word = .manual i) : word = i := by
  simp only [ofWord] at h
  split at h
  · cases h
  · split at h
    · cases h
    · exact AbrMode.manual.inj h

/-- Packing loses nothing on the indices its assertion admits. -/
theorem ofWord_toWord {m : AbrMode} (h : m.Packable) : ofWord m.toWord = m := by
  have hmax : wordMax.toNat = 2 ^ 64 - 1 := by decide
  have hthr : autoThreshold.toNat = 2 ^ 63 - 1 := by decide
  rcases m with (_ | v) | v
  · rfl
  · have hv : v.toNat < 2 ^ 63 - 1 := by
      rw [← hthr]
      exact UInt64.lt_iff_toNat_lt.mp h
    have hpre : (wordMax - 1).toNat = 2 ^ 64 - 2 := by decide
    have hword : (wordMax - 1 - v).toNat = 2 ^ 64 - 2 - v.toNat := by
      rw [UInt64.toNat_sub_of_le _ _ (UInt64.le_iff_toNat_le.mpr (by omega)), hpre]
    have hne : ¬ wordMax - 1 - v = wordMax := by
      intro he
      have := congrArg UInt64.toNat he
      omega
    have hge : wordMax - 1 - v ≥ autoThreshold := UInt64.le_iff_toNat_le.mpr (by omega)
    have hback : wordMax - 1 - (wordMax - 1 - v) = v := by
      apply UInt64.toNat_inj.mp
      rw [UInt64.toNat_sub_of_le _ _ (UInt64.le_iff_toNat_le.mpr (by omega)), hword, hpre]
      omega
    simp only [toWord, ofWord, if_neg hne, if_pos hge, hback]
  · have hv : v.toNat < 2 ^ 63 - 1 := by
      rw [← hthr]
      exact UInt64.lt_iff_toNat_lt.mp h
    have hne : ¬ v = wordMax := by
      intro he
      have := congrArg UInt64.toNat he
      omega
    have hlt : ¬ v ≥ autoThreshold := by
      intro hge
      have := UInt64.le_iff_toNat_le.mp hge
      omega
    unfold toWord ofWord
    rw [if_neg hne, if_neg hlt]

end AbrMode

abbrev AbrTicket := ℕ

structure PendingAbrDecision where
  decision : AbrDecision
  ticket : AbrTicket
  deriving DecidableEq, Repr

inductive PendingAbrClaim where
  | absent
  | locked (claim : PendingAbrDecision)
  | ready (claim : PendingAbrDecision)
  deriving DecidableEq, Repr

structure PendingApply where
  reason : AbrReason
  ticket : AbrTicket
  target : VariantIndex
  deriving DecidableEq, Repr

structure PendingState where
  pending : Option PendingApply
  nextTicket : ℕ
  deriving DecidableEq, Repr

namespace PendingState

def ticketMax : ℕ := 2 ^ 64 - 1

def empty : PendingState := { pending := none, nextTicket := 1 }

/-- The slot rewritten under a new ticket; none where the ticket space is exhausted and
minting panics before the slot is touched. -/
def mint (state : PendingState) (reason : AbrReason) (target : VariantIndex) :
    Option PendingState :=
  if state.nextTicket < ticketMax then
    some { pending := some { reason := reason, ticket := state.nextTicket, target := target }
           nextTicket := state.nextTicket + 1 }
  else none

end PendingState

def isThroughputDriven : AbrReason → Bool
  | .upSwitch | .downSwitch | .urgentDownSwitch | .escapeStalled => true
  | _ => false

def isRescue : AbrReason → Bool
  | .escapeStalled | .urgentDownSwitch => true
  | _ => false

def pendingDecision (source target : VariantIndex) (reason : AbrReason) : AbrDecision :=
  match reason with
  | .manualOverride => .manual source target
  | .downSwitch | .urgentDownSwitch => .downSwitch source target reason
  | .initial | .upSwitch | .minInterval | .noEstimate | .bufferTooLowForUpSwitch
  | .escapeStalled | .alreadyOptimal | .locked => .upSwitch source target reason

@[simp] theorem pendingDecision_target (source target : VariantIndex) (reason : AbrReason) :
    (pendingDecision source target reason).target = target := by
  cases reason <;> rfl

@[simp] theorem pendingDecision_reason (source target : VariantIndex) (reason : AbrReason) :
    (pendingDecision source target reason).reason = reason := by
  cases reason <;> rfl

/-- A cap of zero stands for no cap, a last switch at zero for no switch yet. -/
structure AbrState where
  currentVariant : VariantIndex
  lastSwitchAtNanos : ℕ
  maxBandwidthBpsWord : ℕ
  escaping : Bool
  lockCount : UInt64
  modeWord : UInt64
  referenceInstant : ℕ
  pending : PendingState
  deriving DecidableEq

namespace AbrState

def newAt (mode : AbrMode) (reference : ℕ) : AbrState where
  currentVariant := match mode with
    | .auto (some idx) | .manual idx => idx
    | .auto none => 0
  lastSwitchAtNanos := 0
  maxBandwidthBpsWord := 0
  escaping := false
  lockCount := 0
  modeWord := mode.toWord
  referenceInstant := reference
  pending := .empty

def mode (s : AbrState) : AbrMode := .ofWord s.modeWord

def isLocked (s : AbrState) : Bool := s.lockCount > 0

def maxBandwidthBps (s : AbrState) : Option ℕ :=
  if s.maxBandwidthBpsWord = 0 then none else some s.maxBandwidthBpsWord

def instantToNanos (s : AbrState) (instant : ℕ) : ℕ :=
  max (min (instant - s.referenceInstant) (2 ^ 64 - 1)) 1

def switchIntervalRemaining (s : AbrState) (now minInterval : ℕ) : ℕ :=
  let since := if s.lastSwitchAtNanos = 0 then s.referenceInstant
    else s.referenceInstant + s.lastSwitchAtNanos
  minInterval - (now - since)

def canSwitchNow (s : AbrState) (now minInterval : ℕ) : Bool :=
  s.switchIntervalRemaining now minInterval = 0

def setMaxBandwidthBps (s : AbrState) (cap : Option ℕ) : AbrState :=
  { s with maxBandwidthBpsWord := cap.getD 0 }

def markEscape (s : AbrState) : AbrState := { s with escaping := true }

def clearEscape (s : AbrState) : AbrState := { s with escaping := false }

def lock (s : AbrState) : AbrState := { s with lockCount := s.lockCount + 1 }

/-- The count wraps when there is no matching lock; only a debug assertion guards it. -/
def unlock (s : AbrState) : AbrState := { s with lockCount := s.lockCount - 1 }

def recordSwitch (s : AbrState) (now : ℕ) : AbrState :=
  { s with lastSwitchAtNanos := s.instantToNanos now }

def pendingClaim (s : AbrState) (current : VariantIndex) : PendingAbrClaim :=
  match s.pending.pending with
  | none => .absent
  | some p =>
    if p.target = current then .absent
    else
      let claim : PendingAbrDecision :=
        { decision := pendingDecision current p.target p.reason, ticket := p.ticket }
      if s.isLocked then .locked claim else .ready claim

def claimPendingDecision (s : AbrState) (current : VariantIndex) : Option PendingAbrDecision :=
  match s.pendingClaim current with
  | .ready claim => some claim
  | .absent | .locked _ => none

def requestTarget (s : AbrState) (target : VariantIndex) (reason : AbrReason) : AbrState :=
  match s.mode with
  | .manual idx => if idx ≠ target then s else replace s
  | .auto _ => replace s
where
  replace (s : AbrState) : AbrState :=
    if s.pending.pending.any (fun p => p.target = target) then s
    else { s with pending := (s.pending.mint reason target).getD s.pending }

def retractThroughputPending (s : AbrState) (current : VariantIndex) : AbrState :=
  if s.pending.pending.any
      (fun p => isThroughputDriven p.reason && !isRescue p.reason && p.target ≠ current) then
    { s with pending := { s.pending with pending := none } }
  else s

def setMode (s : AbrState) (mode : AbrMode) : AbrState :=
  let restated : Option PendingApply := match mode with
    | .manual target => s.pending.pending.filter fun p => p.target = target
    | .auto _ => none
  { s with
    modeWord := mode.toWord
    pending := match restated with
      | some p =>
        if p.reason = .manualOverride then s.pending
        else (s.pending.mint .manualOverride p.target).getD s.pending
      | none => { s.pending with pending := none } }

def abortPending (s : AbrState) (ticket : AbrTicket) : AbrState × Bool :=
  match s.pending.pending with
  | none => (s, false)
  | some p =>
    if p.ticket ≠ ticket then (s, false)
    else ({ s with pending := { s.pending with pending := none } }, true)

/-- The decision is rebuilt from the live current variant and must be the claimed one. -/
def commitPending (s : AbrState) (claim : PendingAbrDecision) (now : ℕ) : AbrState × Bool :=
  if s.isLocked then (s, false)
  else match s.pending.pending with
    | none => (s, false)
    | some p =>
      let decision := pendingDecision s.currentVariant p.target p.reason
      if p.ticket ≠ claim.ticket ∨ decision ≠ claim.decision then (s, false)
      else
        let cleared := { s with pending := { s.pending with pending := none } }.clearEscape
        ({ cleared with currentVariant := decision.target }.recordSwitch now, true)

/-- A commit takes effect exactly on the unlocked state whose pending intent the claim names. -/
theorem commitPending_iff {s : AbrState} {claim : PendingAbrDecision} {now : ℕ} :
    (s.commitPending claim now).2 = true ↔ s.isLocked = false ∧
      ∃ p, s.pending.pending = some p ∧ p.ticket = claim.ticket ∧
        pendingDecision s.currentVariant p.target p.reason = claim.decision := by
  simp only [commitPending]
  cases s.isLocked with
  | true => simp
  | false =>
    cases s.pending.pending with
    | none => simp
    | some p =>
      by_cases h : p.ticket ≠ claim.ticket ∨
          pendingDecision s.currentVariant p.target p.reason ≠ claim.decision
      · simp only [Bool.false_eq_true, if_false, if_pos h, false_iff, true_and]
        rintro ⟨q, hq, ht, hd⟩
        cases hq
        exact h.elim (fun hn => hn ht) (fun hn => hn hd)
      · have h' := not_or.mp h
        simp only [Bool.false_eq_true, if_false, if_neg h, true_iff, true_and]
        exact ⟨p, rfl, not_not.mp h'.1, not_not.mp h'.2⟩

theorem commitPending_refused {s : AbrState} {claim : PendingAbrDecision} {now : ℕ}
    (h : (s.commitPending claim now).2 = false) : s.commitPending claim now = (s, false) := by
  simp only [commitPending] at h ⊢
  cases hl : s.isLocked with
  | true => simp
  | false =>
    cases hp : s.pending.pending with
    | none => simp
    | some p =>
      simp only [hl, hp, Bool.false_eq_true, if_false] at h ⊢
      by_cases hc : p.ticket ≠ claim.ticket ∨
          pendingDecision s.currentVariant p.target p.reason ≠ claim.decision
      · rw [if_pos hc]
      · rw [if_neg hc] at h
        cases h

/-- What an accepted commit publishes: the target of the pending intent it consumes. -/
theorem commitPending_accepted {s : AbrState} {claim : PendingAbrDecision} {now : ℕ}
    (h : (s.commitPending claim now).2 = true) :
    (s.commitPending claim now).1.currentVariant = claim.decision.target ∧
      (s.commitPending claim now).1.pending = { s.pending with pending := none } ∧
      (s.commitPending claim now).1.modeWord = s.modeWord := by
  obtain ⟨hl, p, hp, ht, hd⟩ := commitPending_iff.mp h
  have hc : ¬ (p.ticket ≠ claim.ticket ∨
      pendingDecision s.currentVariant p.target p.reason ≠ claim.decision) := by
    simp [ht, hd]
  simp only [commitPending, hl, hp, Bool.false_eq_true, if_false, if_neg hc]
  refine ⟨?_, rfl, rfl⟩
  rw [← hd]
  rfl

theorem abortPending_refused {s : AbrState} {ticket : AbrTicket}
    (h : ∀ p, s.pending.pending = some p → p.ticket ≠ ticket) :
    s.abortPending ticket = (s, false) := by
  simp only [abortPending]
  cases hp : s.pending.pending with
  | none => rfl
  | some p => simp [h p hp]

end AbrState

end Abr

import Kithara.HlsSegmentSlot

/-! How the claim on a slot ends. Each ending leaves a flag state in the slot and says whether the
claim itself sends its work back to the plan. -/
namespace HlsFetchClaim

open HlsSegmentSlot

inductive NetError where
  | status (code : ℕ)
  | timeout
  | network
  | decode
  | retryExhausted (maxRetries : ℕ) (source : NetError)
  | cancelled
  | invalidContentType
  | protocol
  | noTransport
  | refused
  deriving DecidableEq, Repr

inductive Retryability where
  | transient
  | fatal
  deriving DecidableEq, Repr

namespace NetError

def retryability : NetError → Retryability
  | .status code => if 500 ≤ code ∨ code = 429 ∨ code = 408 then .transient else .fatal
  | .timeout => .transient
  | .network => .transient
  | _ => .fatal

def cause : NetError → NetError
  | .retryExhausted _ source => source.cause
  | other => other

/-- A stalled transfer counts as an answer, although it is retried within one request. -/
def canAnswerLater (e : NetError) : Bool :=
  match e.cause with
  | .network => true
  | .status code => (status code).retryability = .transient
  | _ => false

end NetError

def isTerminalFetchError (e : NetError) : Bool := e ≠ .cancelled && !e.canAnswerLater

/-- The slot as the ended claim leaves it, and whether the claim returns its work itself. -/
structure Ending where
  slot : SegmentSlotState
  returned : Bool
  deriving DecidableEq, Repr

def intoMissing (slot : SegmentSlotState) : Ending := ⟨slot.markMissing, false⟩

def intoFailed (slot : SegmentSlotState) : Ending := ⟨slot.markFailed, false⟩

/-- Work whose bytes an eviction took before the settlement goes back to the plan. -/
def settleLoaded (slot : SegmentSlotState) : Ending := ⟨slot.markLoaded.1, !slot.markLoaded.2⟩

def dropUnsettled (slot : SegmentSlotState) : Ending := { intoMissing slot with returned := true }

def settleCancelled (slot : SegmentSlotState) : Ending :=
  { intoMissing slot with returned := true }

def settleFailure (slot : SegmentSlotState) (e : NetError) : Ending :=
  if isTerminalFetchError e then intoFailed slot else { intoMissing slot with returned := true }

/-- The failed commit reverts the slot and returns nothing to the plan. -/
def settleSuccess (slot : SegmentSlotState) (committed : Bool) : Ending :=
  if committed then settleLoaded slot else intoMissing slot

def settleInner (slot : SegmentSlotState) (cancelled : Bool) (err : Option NetError)
    (committed : Bool) : Ending :=
  if cancelled then settleCancelled slot
  else match err with
    | none => settleSuccess slot committed
    | some e => settleFailure slot e

inductive AssetsError where
  | tmpClaimed
  | other
  deriving DecidableEq, Repr

inductive AcquireSettle where
  | requeue
  | fail
  deriving DecidableEq, Repr

/-- A live claimant of the temporary file releases it, so waiting for it spends no budget. -/
def settleFor (err : AssetsError) (failures budget : ℕ) : AcquireSettle :=
  if err = .tmpClaimed then .requeue else if failures < budget then .requeue else .fail

def settleUnacquirable (slot : SegmentSlotState) (err : AssetsError) (budget : ℕ) : Ending :=
  let (noted, failures) := slot.noteAcquireFailure
  match settleFor err failures budget with
  | .requeue => intoMissing noted
  | .fail => intoFailed noted

inductive AcquisitionResult where
  | pending
  | ready
  | other
  deriving DecidableEq, Repr

/-- A built command carries the claim on; otherwise the claim has ended in the dispatcher. -/
inductive Built where
  | command (slot : SegmentSlotState)
  | ended (ending : Ending)

def buildCmd (slot : SegmentSlotState) : AcquisitionResult → Built
  | .pending => .command slot
  | .ready => .ended (settleLoaded slot)
  | .other => .ended (intoMissing slot)

def buildFetchCmd (slot : SegmentSlotState) (acquired : Except AssetsError AcquisitionResult)
    (budget : ℕ) : Built :=
  match acquired with
  | .ok resource => buildCmd slot.clearAcquireFailures resource
  | .error err => .ended (settleUnacquirable slot err budget)

def Ending.Released (o : Ending) : Prop := o.slot.flags.downloading = false

/-- After the ending the slot owes nothing, or the claim sees its work back to the plan. -/
def Ending.Accounted (o : Ending) : Prop := o.slot.settled = true ∨ o.returned = true

theorem intoMissing_released (slot : SegmentSlotState) : (intoMissing slot).Released :=
  SegmentSlotState.markMissing_downloading slot

theorem intoFailed_released (slot : SegmentSlotState) : (intoFailed slot).Released :=
  SegmentSlotState.markFailed_downloading slot

theorem settleLoaded_released (slot : SegmentSlotState) : (settleLoaded slot).Released :=
  SegmentSlotState.markLoaded_downloading slot

theorem settleLoaded_accounted (slot : SegmentSlotState) : (settleLoaded slot).Accounted := by
  by_cases h : slot.markLoaded.2 = true
  · exact Or.inl (SegmentSlotState.markLoaded_settled h)
  · exact Or.inr (by simp [settleLoaded, h])

theorem settleFailure_released (slot : SegmentSlotState) (e : NetError) :
    (settleFailure slot e).Released := by
  by_cases h : isTerminalFetchError e = true
  · rw [settleFailure, if_pos h]
    exact intoFailed_released slot
  · rw [settleFailure, if_neg h]
    exact intoMissing_released slot

theorem settleFailure_accounted (slot : SegmentSlotState) (e : NetError) :
    (settleFailure slot e).Accounted := by
  by_cases h : isTerminalFetchError e = true
  · rw [settleFailure, if_pos h]
    exact Or.inl (SegmentSlotState.markFailed_settled slot)
  · rw [settleFailure, if_neg h]
    exact Or.inr rfl

def CommitFails (cancelled : Bool) (err : Option NetError) (committed : Bool) : Prop :=
  cancelled = false ∧ err = none ∧ committed = false

theorem settleInner_commitFails {cancelled : Bool} {err : Option NetError} {committed : Bool}
    (h : CommitFails cancelled err committed) (slot : SegmentSlotState) :
    settleInner slot cancelled err committed = intoMissing slot := by
  obtain ⟨rfl, rfl, rfl⟩ := h
  rfl

theorem settleInner_released (slot : SegmentSlotState) (cancelled : Bool) (err : Option NetError)
    (committed : Bool) : (settleInner slot cancelled err committed).Released := by
  cases cancelled with
  | true => exact intoMissing_released slot
  | false =>
    cases err with
    | some e => exact settleFailure_released slot e
    | none =>
      cases committed with
      | true => exact settleLoaded_released slot
      | false => exact intoMissing_released slot

theorem settleInner_accounted {cancelled : Bool} {err : Option NetError} {committed : Bool}
    (h : ¬ CommitFails cancelled err committed) (slot : SegmentSlotState) :
    (settleInner slot cancelled err committed).Accounted := by
  cases cancelled with
  | true => exact Or.inr rfl
  | false =>
    cases err with
    | some e => exact settleFailure_accounted slot e
    | none =>
      cases committed with
      | true => exact settleLoaded_accounted slot
      | false => exact absurd ⟨rfl, rfl, rfl⟩ h

theorem settleUnacquirable_released (slot : SegmentSlotState) (err : AssetsError) (budget : ℕ) :
    (settleUnacquirable slot err budget).Released := by
  simp only [settleUnacquirable]
  split
  · exact intoMissing_released _
  · exact intoFailed_released _

/-- A command keeps the claim's slot as it is, failures apart; otherwise the slot is given up. -/
theorem buildFetchCmd_spec (slot : SegmentSlotState)
    (acquired : Except AssetsError AcquisitionResult) (budget : ℕ) :
    buildFetchCmd slot acquired budget = .command slot.clearAcquireFailures ∨
      ∃ o : Ending, o.Released ∧ buildFetchCmd slot acquired budget = .ended o := by
  cases acquired with
  | error err => exact Or.inr ⟨_, settleUnacquirable_released slot err budget, rfl⟩
  | ok resource =>
    cases resource with
    | pending => exact Or.inl rfl
    | ready => exact Or.inr ⟨_, settleLoaded_released _, rfl⟩
    | other => exact Or.inr ⟨_, intoMissing_released _, rfl⟩

end HlsFetchClaim

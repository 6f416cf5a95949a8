import Kithara.AbrState
import Kithara.TransitionSystem
import Mathlib.Logic.Function.Basic

/-! The two session slots of an HLS stream: the active session and, while a variant switch is
under way, the incoming one. Every operation runs under the transition lock, save the second half
of planning; what it reads of the pending ABR claim, and whether a commit is accepted, is its
argument, so that the claim may change between any two reads. -/
namespace VariantSlots

open Abr TransitionSystem

inductive OutgoingDisposition where
  | retained
  | abandoned
  deriving DecidableEq

structure VariantTransition where
  outgoingDisposition : OutgoingDisposition
  activeVariant : VariantIndex
  incomingVariant : VariantIndex
  /-- The accepted ABR request. -/
  id : AbrTicket
  deriving DecidableEq

inductive StreamError where
  | variantNotFound (variant : VariantIndex)
  | planMismatch
  | profileChanged
  /-- The session could not be prepared, or answered for its window with an error. -/
  | session
  deriving DecidableEq

inductive VariantReaderTake where
  | stale
  | preparing
  | taken
  | ready
  deriving DecidableEq

inductive VariantPromotion where
  | promoted
  | deferred
  | stale
  deriving DecidableEq

variable (Media Profile : Type*)

structure VariantReaderPlan where
  landingTime : ℕ
  mediaInfo : Media
  transition : VariantTransition
  deriving DecidableEq

structure HlsSession where
  variantIndex : VariantIndex
  mediaInfo : Media
  transition : Option VariantTransition
  active : Bool
  cancelled : Bool
  deriving DecidableEq

structure ResidentSessions where
  active : ℕ
  incoming : Option ℕ
  deriving DecidableEq

structure IncomingSlot where
  session : ℕ
  landingTime : ℕ
  reader : Option (VariantReaderPlan Media)
  claim : PendingAbrDecision
  profile : Profile
  transition : VariantTransition

/-- What happens to one session, with the claim it was installed for or committed with. -/
inductive Event where
  | installed (claim : PendingAbrDecision)
  | handedOut
  | commit (claim : PendingAbrDecision) (accepted : Bool)
  | promoted
  | aborted
  deriving DecidableEq

structure State where
  publication : ResidentSessions
  incoming : Option (IncomingSlot Media Profile)
  /-- By number, in the order they were created. -/
  session : ℕ → HlsSession Media
  created : ℕ
  /-- Plans whose second half, outside the lock, is still to come. -/
  planning : List (PendingAbrDecision × VariantTransition)
  log : List (ℕ × Event)
  /-- Tickets whose ABR intent was aborted. -/
  abortedIntents : List AbrTicket

inductive Action where
  | plan (claim : PendingAbrClaim)
  | finishPlan (claim : PendingAbrDecision) (transition : VariantTransition)
    (again : PendingAbrClaim) (landingTime : ℕ)
  | prepare (plan : VariantReaderPlan Media) (profile : Profile) (claim again : PendingAbrClaim)
    (opens : Bool)
  | take (transition : VariantTransition) (claim : PendingAbrClaim) (ready : Except Unit Bool)
  | promote (transition : VariantTransition) (claim again : PendingAbrClaim) (accepted : Bool)
  | abortVariant (transition : VariantTransition)
  | cancelIncomingForSeek

variable {Media Profile}

def HlsSession.initial (variantIndex : VariantIndex) (mediaInfo : Media) : HlsSession Media :=
  { variantIndex := variantIndex, mediaInfo := mediaInfo, transition := none, active := true,
    cancelled := false }

def HlsSession.incoming (transition : VariantTransition) (mediaInfo : Media) : HlsSession Media :=
  { variantIndex := transition.incomingVariant, mediaInfo := mediaInfo,
    transition := some transition, active := false, cancelled := false }

def start (variantIndex : VariantIndex) (mediaInfo : Media) : State Media Profile :=
  { publication := ⟨0, none⟩, incoming := none
    session := fun _ => .initial variantIndex mediaInfo
    created := 1, planning := [], log := [], abortedIntents := [] }

def transitionForClaim (claim : PendingAbrDecision) (activeVariant : VariantIndex) :
    VariantTransition :=
  { outgoingDisposition := match claim.decision with
      | .upSwitch _ _ .escapeStalled => .abandoned
      | _ => .retained
    activeVariant := activeVariant
    incomingVariant := claim.decision.target
    id := claim.ticket }

/-- The claim is pending still, be it ready or locked. -/
def claimMatches (claim : PendingAbrDecision) : PendingAbrClaim → Bool
  | .ready current | .locked current => current = claim
  | .absent => false

namespace State

variable (s : State Media Profile)

/-- The variant of the authoritative active session. -/
def variantIndex : VariantIndex := (s.session s.publication.active).variantIndex

def event (i : ℕ) (e : Event) : State Media Profile := { s with log := s.log ++ [(i, e)] }

def activate (i : ℕ) : State Media Profile :=
  { s with session := Function.update s.session i { s.session i with active := true } }

def abort (i : ℕ) : State Media Profile :=
  { s with
    session := Function.update s.session i { s.session i with cancelled := true }
    log := s.log ++ [(i, .aborted)] }

def abortPending (ticket : AbrTicket) : State Media Profile :=
  { s with abortedIntents := ticket :: s.abortedIntents }

def publishExactOne (i : ℕ) : State Media Profile := { s with publication := ⟨i, none⟩ }

def publishExactTwo (active incoming : ℕ) : State Media Profile :=
  { s with publication := ⟨active, some incoming⟩ }

def vacate : State Media Profile := { s with incoming := none }

def occupy (slot : IncomingSlot Media Profile) : State Media Profile :=
  { s with incoming := some slot }

/-- The next session, neither published nor in a slot. -/
def create (session : HlsSession Media) : State Media Profile :=
  { s with
    session := Function.update s.session s.created session
    created := s.created + 1 }

def discardIncoming (abortIntent : Bool) : State Media Profile := match s.incoming with
  | none => s
  | some slot =>
    let discarded := (s.vacate.publishExactOne s.publication.active).abort slot.session
    if abortIntent then discarded.abortPending slot.claim.ticket else discarded

end State

def State.planOfSlot (s : State Media Profile) (slot : IncomingSlot Media Profile) :
    VariantReaderPlan Media :=
  ⟨slot.landingTime, (s.session slot.session).mediaInfo, slot.transition⟩

/-- The half of planning under the lock: an answer, or the claim and the transition to go on
with. -/
def planVariantReader (s : State Media Profile) (claim : PendingAbrClaim) :
    State Media Profile × (Except StreamError (Option (VariantReaderPlan Media)) ⊕
      PendingAbrDecision × VariantTransition) := match claim with
  | .absent => (s.discardIncoming true, .inl (.ok none))
  | .locked claim => match s.incoming with
    | some slot =>
      if slot.claim = claim then
        if s.variantIndex ≠ slot.transition.activeVariant then
          (s.discardIncoming false, .inl (.ok none))
        else (s, .inl (.ok (some (s.planOfSlot slot))))
      else (s.discardIncoming true, .inl (.ok none))
    | none => (s.discardIncoming true, .inl (.ok none))
  | .ready claim =>
    let transition := transitionForClaim claim s.variantIndex
    match s.incoming with
    | some slot =>
      if slot.transition = transition then (s, .inl (.ok (some (s.planOfSlot slot))))
      else (s.discardIncoming (slot.claim ≠ claim), .inr (claim, transition))
    | none => (s, .inr (claim, transition))

variable (variants : VariantIndex → Option Media)

/-- The half of planning after the lock is released. -/
def finishPlan (s : State Media Profile) (claim : PendingAbrDecision)
    (transition : VariantTransition) (again : PendingAbrClaim) (landingTime : ℕ) :
    State Media Profile × Except StreamError (Option (VariantReaderPlan Media)) :=
  match variants transition.incomingVariant with
  | none =>
    (s.abortPending claim.ticket, .error (.variantNotFound transition.incomingVariant))
  | some mediaInfo =>
    if !claimMatches claim again || s.variantIndex ≠ transition.activeVariant then
      (s.abortPending claim.ticket, .ok none)
    else (s, .ok (some ⟨landingTime, mediaInfo, transition⟩))

/-- The plan must match the variant's media and the landing time it is prepared for. -/
def validateHlsReaderPlan [DecidableEq Media] (plan : VariantReaderPlan Media)
    (mediaInfo : Media) (landingTime : ℕ) : Bool :=
  plan.mediaInfo = mediaInfo && plan.landingTime = landingTime

def State.prepared [DecidableEq Media] [DecidableEq Profile] (s : State Media Profile)
    (plan : VariantReaderPlan Media) (profile : Profile) (slot : IncomingSlot Media Profile) :
    Except StreamError (Option VariantTransition) :=
  if !validateHlsReaderPlan plan (s.session slot.session).mediaInfo slot.landingTime then
    .error .planMismatch
  else if slot.profile ≠ profile then .error .profileChanged
  else .ok (some slot.transition)

/-- A session is created, and installed unless the claim or the active variant has moved on. -/
def install [DecidableEq Media] (s : State Media Profile) (plan : VariantReaderPlan Media)
    (profile : Profile) (claim : PendingAbrDecision) (again : PendingAbrClaim) (opens : Bool) :
    State Media Profile × Except StreamError (Option VariantTransition) :=
  let transition := plan.transition
  match variants transition.incomingVariant with
  | none =>
    (s.abortPending claim.ticket, .error (.variantNotFound transition.incomingVariant))
  | some mediaInfo =>
    if !validateHlsReaderPlan plan mediaInfo plan.landingTime then
      (s, .error .planMismatch)
    else if !opens then (s.abortPending claim.ticket, .error .session)
    else
      let session := s.created
      let s := s.create (.incoming transition mediaInfo)
      if !claimMatches claim again || s.variantIndex ≠ transition.activeVariant then
        ((s.abort session).abortPending claim.ticket, .ok none)
      else
        let slot : IncomingSlot Media Profile :=
          { session := session, landingTime := plan.landingTime, reader := some plan,
            claim := claim, profile := profile, transition := transition }
        let s := s.publishExactTwo s.publication.active session
        ((s.occupy slot).event session (.installed claim), .ok (some transition))

def preparePlannedVariantReader [DecidableEq Media] [DecidableEq Profile]
    (s : State Media Profile) (plan : VariantReaderPlan Media) (profile : Profile)
    (claim again : PendingAbrClaim) (opens : Bool) :
    State Media Profile × Except StreamError (Option VariantTransition) := match claim with
  | .absent => (s.discardIncoming true, .ok none)
  | .locked claim => match s.incoming with
    | some slot =>
      if slot.claim = claim then
        if slot.transition ≠ plan.transition then (s, .ok none)
        else if s.variantIndex ≠ plan.transition.activeVariant then
          (s.discardIncoming false, .ok none)
        else (s, s.prepared plan profile slot)
      else (s.discardIncoming true, .ok none)
    | none => (s.discardIncoming true, .ok none)
  | .ready claim =>
    if plan.transition ≠ transitionForClaim claim s.variantIndex then
      match s.incoming with
      | some slot =>
        if slot.transition = plan.transition then (s.discardIncoming (slot.claim ≠ claim), .ok none)
        else (s, .ok none)
      | none => (s, .ok none)
    else match s.incoming with
      | some slot =>
        if slot.transition = plan.transition then (s, s.prepared plan profile slot)
        else install variants (s.discardIncoming (slot.claim ≠ claim)) plan profile claim again opens
      | none => install variants s plan profile claim again opens

def takePreparedVariantReader (s : State Media Profile) (transition : VariantTransition)
    (claim : PendingAbrClaim) (ready : Except Unit Bool) :
    State Media Profile × Except StreamError VariantReaderTake := match s.incoming with
  | none => (s, .ok .stale)
  | some slot =>
    if slot.transition ≠ transition then (s, .ok .stale)
    else match claim with
      | .locked claim =>
        if claim = slot.claim ∧ s.variantIndex = transition.activeVariant then (s, .ok .preparing)
        else (s.discardIncoming true, .ok .stale)
      | .absent => (s.discardIncoming true, .ok .stale)
      | .ready claim =>
        if claim ≠ slot.claim ∨ s.variantIndex ≠ transition.activeVariant then
          (s.discardIncoming true, .ok .stale)
        else match ready with
          | .ok false => (s, .ok .preparing)
          | .ok true => match slot.reader with
            | none => (s, .ok .taken)
            | some _ =>
              ((s.occupy { slot with reader := none }).event slot.session .handedOut, .ok .ready)
          | .error _ => (s.discardIncoming true, .error .session)

/-- The slot is taken out, committed with its own claim, and put back, discarded or promoted. -/
def promoteSlot (s : State Media Profile) (slot : IncomingSlot Media Profile)
    (again : PendingAbrClaim) (accepted : Bool) : State Media Profile × VariantPromotion :=
  let taken := s.vacate.event slot.session (.commit slot.claim accepted)
  let outgoing := taken.publication.active
  if !accepted then
    if claimMatches slot.claim again && taken.variantIndex = slot.transition.activeVariant then
      (taken.occupy slot, .deferred)
    else ((taken.publishExactOne outgoing).abort slot.session, .stale)
  else
    let activated := taken.activate slot.session
    (((activated.publishExactOne slot.session).event slot.session .promoted).abort outgoing,
      .promoted)

def promotePlannedVariant (s : State Media Profile) (transition : VariantTransition)
    (claim again : PendingAbrClaim) (accepted : Bool) : State Media Profile × VariantPromotion :=
  match s.incoming with
  | none => (s, .stale)
  | some slot =>
    if slot.transition ≠ transition then (s, .stale)
    else match claim with
      | .locked claim =>
        if claim = slot.claim then (s, .deferred) else (s.discardIncoming true, .stale)
      | .absent => (s.discardIncoming true, .stale)
      | .ready claim =>
        if claim ≠ slot.claim ∨ s.variantIndex ≠ transition.activeVariant then
          (s.discardIncoming true, .stale)
        else if slot.reader.isSome then (s, .deferred)
        else promoteSlot s slot again accepted

def abortVariant (s : State Media Profile) (transition : VariantTransition) :
    State Media Profile × Bool := match s.incoming with
  | none => (s, false)
  | some slot =>
    if slot.transition ≠ transition then (s, false) else (s.discardIncoming true, true)

def Enabled (s : State Media Profile) : Action Media Profile → Prop
  | .finishPlan claim transition _ _ => (claim, transition) ∈ s.planning
  | _ => True

instance (s : State Media Profile) : (a : Action Media Profile) → Decidable (Enabled s a)
  | .finishPlan claim transition _ _ =>
    inferInstanceAs (Decidable ((claim, transition) ∈ s.planning))
  | .plan _ | .prepare _ _ _ _ _ | .take _ _ _ | .promote _ _ _ _ | .abortVariant _
  | .cancelIncomingForSeek => isTrue trivial

variable [DecidableEq Media] [DecidableEq Profile]

def next (s : State Media Profile) : Action Media Profile → State Media Profile
  | .plan claim =>
    let planned := planVariantReader s claim
    { planned.1 with
      planning := s.planning ++ planned.2.elim (fun _ => []) fun going => [going] }
  | .finishPlan claim transition again landingTime =>
    { (finishPlan variants s claim transition again landingTime).1 with
      planning := s.planning.erase (claim, transition) }
  | .prepare plan profile claim again opens =>
    (preparePlannedVariantReader variants s plan profile claim again opens).1
  | .take transition claim ready => (takePreparedVariantReader s transition claim ready).1
  | .promote transition claim again accepted =>
    (promotePlannedVariant s transition claim again accepted).1
  | .abortVariant transition => (abortVariant s transition).1
  | .cancelIncomingForSeek => s.discardIncoming false

def machine : Machine (State Media Profile) (Action Media Profile) where
  Enabled := Enabled
  next := next variants

instance (s : State Media Profile) (a : Action Media Profile) :
    Decidable ((machine variants).Enabled s a) :=
  inferInstanceAs (Decidable (Enabled s a))

end VariantSlots

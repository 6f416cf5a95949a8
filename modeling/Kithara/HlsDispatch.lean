import Kithara.HlsFetchClaim
import Kithara.TransitionSystem
import Mathlib.Algebra.Group.Nat.Defs
import Mathlib.Logic.Function.Basic

/-! An HLS variant between its planner, its dispatcher and its fetches. A dispatch pass takes work
off the plan, claims the slot and builds the command; every lock it takes is a step of its own, so
rebuilds, settlements and evictions fall between any two of them. -/
namespace HlsDispatch

open HlsPlanQueue HlsSegmentSlot HlsFetchClaim TransitionSystem

/-- What the variant is made of: an init slot or none, and its segment slots. -/
structure Variant where
  hasInit : Bool
  numSegments : ℕ

namespace Variant

def entry (v : Variant) : PlannedFetch → Bool
  | .init => v.hasInit
  | .segment index => index < v.numSegments

end Variant

structure DispatchInput where
  budget : ℕ
  waitSegment : Option ℕ
  constructionSegmentEnd : Option ℕ
  prefetchBase : ℕ
  lookAheadBytes : ℕ
  prefetchSegmentCap : Option ℕ

structure Bounds where
  constructionSegmentEnd : Option ℕ
  prefetchByteCap : Option ℕ
  prefetchSegmentCap : Option ℕ

def DispatchInput.bounds (input : DispatchInput) : Bounds :=
  let constructionSegmentEnd :=
    input.constructionSegmentEnd.map fun last => max last (input.waitSegment.getD last)
  { constructionSegmentEnd := constructionSegmentEnd
    prefetchByteCap :=
      if constructionSegmentEnd.isNone then
        some (min (input.prefetchBase + input.lookAheadBytes) (2 ^ 64 - 1))
      else none
    prefetchSegmentCap :=
      if constructionSegmentEnd.isNone then input.prefetchSegmentCap else none }

/-- Whether the head of the plan lies past a bound; the init never does. -/
def Bounds.blocks (b : Bounds) (segmentOffset : Option ℕ) : PlannedFetch → Bool
  | .init => false
  | .segment index =>
    b.constructionSegmentEnd.any (· < index) ||
      b.prefetchByteCap.any (fun cap => segmentOffset.any (cap < ·)) ||
      b.prefetchSegmentCap.any (· < index)

/-- Where a pass stands. `promoting` holds the waited segment whose slot was found missing,
`checking` the work whose claim was refused or ended before a command was built. -/
inductive Stage where
  | promoting (segment : Option ℕ)
  | ready
  | popped (work : Work)
  | claimed (work : Work)
  | checking (work : Work)
  | leaving
  deriving DecidableEq

structure Pass where
  stage : Stage
  bounds : Bounds
  remaining : ℕ
  deferred : List Work

/-- `claims` are the live claims of built commands, `returns` the work on its way to
`requeue_planned`, `popped` all the work the dispatcher ever took. -/
structure State where
  slots : PlannedFetch → SegmentSlotState
  plan : PlanQueue
  pass : Option Pass
  claims : List Work
  returns : List Work
  popped : List Work

def start (v : Variant) : State where
  slots := fun _ => .missing
  plan := .new v.numSegments
  pass := none
  claims := []
  returns := []
  popped := []

inductive Action where
  | rebuild (matched needsInit : Bool) (fromSeg : ℕ) (probeSeg : Option ℕ)
  | enqueueBodyFetch (planned : PlannedFetch)
  | beginDispatch (input : DispatchInput)
  | prioritize
  | pop (segmentOffset : Option ℕ)
  | tryClaim
  | committedLen
  | buildFetchCmd (acquired : Except AssetsError AcquisitionResult)
  | checkDeferred
  | finishDispatch
  | settle (claim : ℕ) (cancelled : Bool) (err : Option NetError) (committed : Bool)
  | dropClaim (claim : ℕ)
  | requeuePlanned (ret : ℕ)
  | evict (planned : PlannedFetch)
  | markSlow (planned : PlannedFetch)
  | noteReaderDemand (planned : PlannedFetch)

def State.stage (s : State) : Option Stage := s.pass.map Pass.stage

def Enabled (s : State) : Action → Prop
  | .beginDispatch _ => s.pass = none
  | .prioritize => ∃ segment, s.stage = some (.promoting segment)
  | .pop _ => s.stage = some .ready
  | .tryClaim => ∃ work, s.stage = some (.popped work)
  | .committedLen => ∃ work, s.stage = some (.claimed work)
  | .buildFetchCmd _ => ∃ work, s.stage = some (.claimed work)
  | .checkDeferred => ∃ work, s.stage = some (.checking work)
  | .finishDispatch => s.stage = some .leaving
  | .settle claim _ _ _ => claim < s.claims.length
  | .dropClaim claim => claim < s.claims.length
  | .requeuePlanned ret => ret < s.returns.length
  | .evict planned => (s.slots planned).flags.downloading = true
  | _ => True

def State.setSlot (s : State) (planned : PlannedFetch) (slot : SegmentSlotState) : State :=
  { s with slots := Function.update s.slots planned slot }

def State.endClaim (s : State) (work : Work) (o : Ending) : State :=
  { s.setSlot work.planned o.slot with
    returns := if o.returned then work :: s.returns else s.returns }

def State.settleClaim (s : State) (claim : ℕ) (ending : SegmentSlotState → Ending) : State :=
  match s.claims[claim]? with
  | none => s
  | some work =>
    { s with claims := s.claims.eraseIdx claim }.endClaim work (ending (s.slots work.planned))

/-- The waited segment is promoted if nothing holds or settles its slot. -/
def waitingSegment (v : Variant) (s : State) (waitSegment : Option ℕ) : Option ℕ :=
  waitSegment.filter fun segment =>
    v.entry (.segment segment) && !(s.slots (.segment segment)).settled &&
      !(s.slots (.segment segment)).flags.downloading

def Pass.takeFront (pass : Pass) (plan : PlanQueue) (segmentOffset : Option ℕ) :
    Option (Work × PlanQueue) :=
  match plan.queue with
  | [] => none
  | head :: _ =>
    if pass.remaining = 0 ∨ pass.bounds.blocks segmentOffset head = true then none
    else plan.popFront

def requeueDeferred (plan : PlanQueue) (deferred : List Work) : PlanQueue :=
  deferred.foldl (fun plan work => (plan.requeueIfCurrent work).1) plan

def stepPass (v : Variant) (budget : ℕ) (s : State) (pass : Pass) : Action → State
  | .prioritize => match pass.stage with
    | .promoting segment =>
      { s with
        plan := segment.elim s.plan s.plan.prioritizeSegment
        pass := some { pass with stage := .ready } }
    | _ => s
  | .pop segmentOffset => match pass.takeFront s.plan segmentOffset with
    | none => { s with pass := some { pass with stage := .leaving } }
    | some (work, plan) =>
      { s with
        plan := plan
        popped := work :: s.popped
        pass := some { pass with stage := .popped work } }
  | .tryClaim => match pass.stage with
    | .popped work =>
      if v.entry work.planned then
        match (s.slots work.planned).tryClaim with
        | some slot =>
          { s.setSlot work.planned slot with pass := some { pass with stage := .claimed work } }
        | none => { s with pass := some { pass with stage := .checking work } }
      else { s with pass := some { pass with stage := .ready } }
    | _ => s
  | .committedLen => match pass.stage with
    | .claimed work =>
      { s with pass := some { pass with stage := .ready } }.endClaim work
        (settleLoaded (s.slots work.planned))
    | _ => s
  | .buildFetchCmd acquired => match pass.stage with
    | .claimed work => match HlsFetchClaim.buildFetchCmd (s.slots work.planned) acquired budget with
      | .command slot =>
        { s.setSlot work.planned slot with
          claims := s.claims ++ [work]
          pass := some { pass with stage := .ready, remaining := pass.remaining - 1 } }
      | .ended o =>
        { s with pass := some { pass with stage := .checking work } }.endClaim work o
    | _ => s
  | .checkDeferred => match pass.stage with
    | .checking work =>
      if (s.slots work.planned).settled then { s with pass := some { pass with stage := .ready } }
      else
        { s with pass := some { pass with stage := .ready, deferred := pass.deferred ++ [work] } }
    | _ => s
  | .finishDispatch =>
    { s with plan := requeueDeferred s.plan pass.deferred, pass := none }
  | _ => s

def next (v : Variant) (budget : ℕ) (s : State) (a : Action) : State :=
  match a with
  | .rebuild matched needsInit fromSeg probeSeg =>
    { s with
      plan :=
        if matched then s.plan.supersede
        else s.plan.replaceWith
          (rebuildPlan v.numSegments (v.hasInit && needsInit) fromSeg probeSeg) }
  | .enqueueBodyFetch planned =>
    { s with plan := if planned ∈ s.plan.queue then s.plan else s.plan.pushFront planned }
  | .beginDispatch input =>
    { s with
      pass := some
        { stage := .promoting (waitingSegment v s input.waitSegment)
          bounds := input.bounds
          remaining := input.budget
          deferred := [] } }
  | .settle claim cancelled err committed =>
    s.settleClaim claim fun slot => settleInner slot cancelled err committed
  | .dropClaim claim => s.settleClaim claim dropUnsettled
  | .requeuePlanned ret => match s.returns[ret]? with
    | none => s
    | some work =>
      { s with plan := (s.plan.requeueIfCurrent work).1, returns := s.returns.eraseIdx ret }
  | .evict planned => s.setSlot planned (s.slots planned).markEvicted
  | .markSlow planned => s.setSlot planned (s.slots planned).markSlow
  | .noteReaderDemand planned => s.setSlot planned (s.slots planned).noteReaderDemand
  | a => match s.pass with
    | none => s
    | some pass => stepPass v budget s pass a

def machine (v : Variant) (budget : ℕ) : Machine State Action where
  Enabled := Enabled
  next := next v budget

theorem stage_eq_some {s : State} {stage : Stage} (h : s.stage = some stage) :
    ∃ pass, s.pass = some pass ∧ pass.stage = stage := by
  simpa [State.stage] using h

theorem takeFront_eq_some {pass : Pass} {plan plan' : PlanQueue} {segmentOffset : Option ℕ}
    {work : Work} (h : pass.takeFront plan segmentOffset = some (work, plan')) :
    plan.popFront = some (work, plan') := by
  simp only [Pass.takeFront] at h
  split at h
  · cases h
  · split at h
    · cases h
    · exact h

theorem requeueDeferred_spec (plan : PlanQueue) (deferred : List Work) :
    (requeueDeferred plan deferred).revision = plan.revision ∧
      (∀ p ∈ plan.queue, p ∈ (requeueDeferred plan deferred).queue) ∧
      ∀ work ∈ deferred, work.revision = plan.revision →
        work.planned ∈ (requeueDeferred plan deferred).queue := by
  induction deferred generalizing plan with
  | nil => exact ⟨rfl, fun p hp => hp, fun work hw => absurd hw (List.not_mem_nil)⟩
  | cons head deferred ih =>
    obtain ⟨hrev, hkeep, hback⟩ := ih (plan.requeueIfCurrent head).1
    have hhead := PlanQueue.requeueIfCurrent_revision plan head
    refine ⟨hrev.trans hhead, ?_, ?_⟩
    · intro p hp
      exact hkeep p (PlanQueue.mem_requeueIfCurrent hp)
    · intro work hw hr
      rcases List.mem_cons.mp hw with rfl | hw
      · exact hkeep _ (PlanQueue.requeueIfCurrent_mem hr)
      · exact hback work hw (hr.trans hhead.symm)

end HlsDispatch

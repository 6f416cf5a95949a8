import Kithara.AbrState
import Mathlib.Data.List.Sort
import Mathlib.Data.Rat.Defs
import Mathlib.Algebra.Order.Field.Rat

/-! The decision a controller tick takes from the state and its view, and what the tick then
does with it. Floating-point factors and the throughput they adjust are exact rationals. -/
namespace Abr

structure AbrSettings where
  minBufferForUpSwitch : ℕ
  minSwitchInterval : ℕ
  urgentDownswitchBuffer : ℕ
  maxBandwidthBps : Option ℕ
  downHysteresisRatio : ℚ
  throughputSafetyFactor : ℚ
  upHysteresisRatio : ℚ

structure VariantInfo where
  bandwidthBps : Option ℕ
  variantIndex : VariantIndex

structure AbrView where
  settings : AbrSettings
  variants : List VariantInfo
  bufferAhead : Option ℕ
  estimateBps : Option ℕ

def manualDecision (current idx : VariantIndex) : AbrDecision :=
  if idx = current then .stay current .manualOverride else .manual current idx

def sortedCandidates (variants : List VariantInfo) (maxBw : Option ℕ) :
    List (VariantIndex × ℕ) :=
  ((variants.map fun v => (v.variantIndex, v.bandwidthBps.getD 0)).filter
    fun c => maxBw.all fun cap => c.2 ≤ cap).insertionSort fun a b => a.2 ≤ b.2

def currentBandwidth (variants : List VariantInfo) (current : VariantIndex) : ℕ :=
  ((variants.find? fun v => v.variantIndex = current).bind VariantInfo.bandwidthBps).getD 0

def adjustedThroughput (estimateBps : ℕ) (safetyFactor : ℚ) : ℚ :=
  max (estimateBps / safetyFactor) 0

def maxByBandwidth (candidates : List (VariantIndex × ℕ)) : Option (VariantIndex × ℕ) :=
  candidates.foldl
    (fun best c => if best.all fun b => b.2 ≤ c.2 then some c else best) none

def candidateVariant (sorted : List (VariantIndex × ℕ)) (adjustedBps : ℚ) :
    Option (VariantIndex × ℕ) :=
  (maxByBandwidth (sorted.filter fun c => (c.2 : ℚ) ≤ adjustedBps)).or sorted.head?

structure SwitchContext where
  settings : AbrSettings
  bufferAhead : Option ℕ
  candidateIdx : VariantIndex
  current : VariantIndex
  adjustedBps : ℚ
  candidateBw : ℕ
  currentBw : ℕ

def upSwitch (ctx : SwitchContext) : AbrDecision :=
  let bufferOk := ctx.bufferAhead.all fun b => b ≥ ctx.settings.minBufferForUpSwitch
  let headroomOk := ctx.adjustedBps ≥ ctx.candidateBw * ctx.settings.upHysteresisRatio
  if bufferOk ∧ headroomOk then .upSwitch ctx.current ctx.candidateIdx .upSwitch
  else .stay ctx.current .bufferTooLowForUpSwitch

def downSwitch (ctx : SwitchContext) : Option AbrDecision :=
  let urgent := ctx.bufferAhead.any fun b => b ≤ ctx.settings.urgentDownswitchBuffer
  let marginOk := ctx.adjustedBps ≤ ctx.currentBw * ctx.settings.downHysteresisRatio
  if urgent then some (.downSwitch ctx.current ctx.candidateIdx .urgentDownSwitch)
  else if marginOk then some (.downSwitch ctx.current ctx.candidateIdx .downSwitch)
  else none

namespace AbrState

def maxBw (s : AbrState) (view : AbrView) : Option ℕ :=
  match s.maxBandwidthBps, view.settings.maxBandwidthBps with
  | some a, some b => some (min a b)
  | some a, none => some a
  | none, cap => cap

/-- The bandwidth-aware part of the decision, on an automatic, unlocked state. -/
def decideBandwidth (s : AbrState) (view : AbrView) (estimateBps : ℕ) : AbrDecision :=
  let current := s.currentVariant
  let maxBw := s.maxBw view
  let candidates := sortedCandidates view.variants maxBw
  let sorted := if s.escaping then candidates.filter (fun c => c.1 ≠ current) else candidates
  let currentBw := currentBandwidth view.variants current
  let adjustedBps := adjustedThroughput estimateBps view.settings.throughputSafetyFactor
  match candidateVariant sorted adjustedBps with
  | none => .stay current .alreadyOptimal
  | some (candidateIdx, candidateBw) =>
    if s.escaping then .upSwitch current candidateIdx .escapeStalled
    else if maxBw.any (fun cap => currentBw > cap) ∧ candidateIdx ≠ current then
      .downSwitch current candidateIdx .downSwitch
    else
      let ctx : SwitchContext :=
        { settings := view.settings
          bufferAhead := view.bufferAhead
          candidateIdx := candidateIdx
          current := current
          adjustedBps := adjustedBps
          candidateBw := candidateBw
          currentBw := currentBw }
      if candidateBw > currentBw then upSwitch ctx
      else if candidateBw < currentBw then
        (downSwitch ctx).getD (.stay current .alreadyOptimal)
      else .stay current .alreadyOptimal

/-- The manual arm precedes the lock arm: a lock gates publication, not the user's intent. -/
def decideUnheld (s : AbrState) (view : AbrView) : AbrDecision :=
  match s.mode, s.isLocked, view.estimateBps with
  | .manual idx, _, _ => manualDecision s.currentVariant idx
  | .auto _, true, _ => .stay s.currentVariant .locked
  | .auto _, false, none => .stay s.currentVariant .noEstimate
  | .auto _, false, some bps => s.decideBandwidth view bps

/-- The decision, held back while the anti-oscillation interval runs. Rescues and the user's
own pin are never held. -/
def decide (s : AbrState) (view : AbrView) (now : ℕ) : AbrDecision :=
  let decision := s.decideUnheld view
  let pinned : Bool := match s.mode with
    | .manual _ => true
    | .auto _ => false
  if ¬ decision.changed ∨ isRescue decision.reason ∨ pinned then decision
  else if s.canSwitchNow now view.settings.minSwitchInterval then decision
  else .stay s.currentVariant .minInterval

/-- The second half of a tick: the decision taken earlier reaches the pending slot. -/
def land (s : AbrState) (decision : AbrDecision) : AbrState :=
  match decision with
  | .stay current .alreadyOptimal => s.retractThroughputPending current
  | .stay _ _ => s
  | change => s.requestTarget change.target change.reason

end AbrState

end Abr

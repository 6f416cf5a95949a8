import Mathlib.Order.Defs.LinearOrder
import Mathlib.Order.Lattice
import Mathlib.Data.Nat.Notation
import Mathlib.Tactic.Common
import Mathlib.Order.Nat

/-! The fetch plan of an HLS variant: the order of the work still to be sent, the revision that
names the plan, and the membership mirror that is read without the lock. -/
namespace HlsPlanQueue

/-- Init comes first in plan order, then the segments ascending. -/
inductive PlannedFetch where
  | init
  | segment (index : ℕ)
  deriving DecidableEq, Repr

namespace PlannedFetch

def rank : PlannedFetch → ℕ
  | .init => 0
  | .segment index => index + 1

theorem rank_injective : Function.Injective rank := by
  intro a b h
  cases a <;> cases b <;> simp_all [rank]

instance : LinearOrder PlannedFetch := LinearOrder.lift' rank rank_injective

end PlannedFetch

/-- Work popped off the plan, with the revision it was popped under. -/
@[ext] structure Work where
  planned : PlannedFetch
  revision : ℕ
  deriving DecidableEq, Repr

structure PlanQueue where
  revision : ℕ
  queue : List PlannedFetch
  initPlanned : Bool
  segmentsPlanned : List Bool
  deriving DecidableEq

namespace PlanQueue

def new (numSegments : ℕ) : PlanQueue :=
  { revision := 0
    queue := []
    initPlanned := false
    segmentsPlanned := List.replicate numSegments false }

/-- An index past the segment map leaves the mirror alone. -/
def mark (q : PlanQueue) (planned : PlannedFetch) (value : Bool) : PlanQueue :=
  match planned with
  | .init => { q with initPlanned := value }
  | .segment index => { q with segmentsPlanned := q.segmentsPlanned.set index value }

def planned (q : PlanQueue) : PlannedFetch → Bool
  | .init => q.initPlanned
  | .segment index => q.segmentsPlanned.getD index false

def popFront (q : PlanQueue) : Option (Work × PlanQueue) :=
  match q.queue with
  | [] => none
  | head :: rest =>
    some ({ planned := head, revision := q.revision }, { q with queue := rest }.mark head false)

def pushFront (q : PlanQueue) (planned : PlannedFetch) : PlanQueue :=
  { q with queue := planned :: q.queue }.mark planned true

def prioritizeSegment (q : PlanQueue) (segment : ℕ) : PlanQueue :=
  let planned := PlannedFetch.segment segment
  let rest := q.queue.erase planned
  let queue := match rest with
    | .init :: tail => .init :: planned :: tail
    | _ => planned :: rest
  { q with queue := queue }.mark planned true

def supersede (q : PlanQueue) : PlanQueue := { q with revision := q.revision + 1 }

def replaceWith (q : PlanQueue) (plan : List PlannedFetch) : PlanQueue :=
  let cleared : PlanQueue :=
    { q.supersede with
      queue := []
      initPlanned := false
      segmentsPlanned := q.segmentsPlanned.map fun _ => false }
  plan.foldl (fun q planned => { q with queue := q.queue ++ [planned] }.mark planned true) cleared

/-- Refuses work of a superseded plan and work the plan already holds. -/
def requeueIfCurrent (q : PlanQueue) (work : Work) : PlanQueue × Bool :=
  if q.revision ≠ work.revision ∨ work.planned ∈ q.queue then (q, false)
  else
    let earlier (queued : PlannedFetch) : Bool := queued ≤ work.planned
    ({ q with queue := q.queue.takeWhile earlier ++ work.planned :: q.queue.dropWhile earlier }.mark
      work.planned true, true)

@[simp] theorem mark_queue (q : PlanQueue) (planned : PlannedFetch) (value : Bool) :
    (q.mark planned value).queue = q.queue := by
  cases planned <;> rfl

@[simp] theorem mark_revision (q : PlanQueue) (planned : PlannedFetch) (value : Bool) :
    (q.mark planned value).revision = q.revision := by
  cases planned <;> rfl

theorem popFront_eq_some {q q' : PlanQueue} {work : Work} (h : q.popFront = some (work, q')) :
    q.queue = work.planned :: q'.queue ∧ work.revision = q.revision ∧
      q'.revision = q.revision := by
  simp only [popFront] at h
  cases hq : q.queue with
  | nil =>
    rw [hq] at h
    cases h
  | cons head rest =>
    rw [hq] at h
    cases h
    simp

@[simp] theorem pushFront_queue (q : PlanQueue) (planned : PlannedFetch) :
    (q.pushFront planned).queue = planned :: q.queue := by
  simp [pushFront]

@[simp] theorem pushFront_revision (q : PlanQueue) (planned : PlannedFetch) :
    (q.pushFront planned).revision = q.revision := by
  simp [pushFront]

@[simp] theorem prioritizeSegment_revision (q : PlanQueue) (segment : ℕ) :
    (q.prioritizeSegment segment).revision = q.revision := by
  simp [prioritizeSegment]

theorem mem_prioritizeSegment {q : PlanQueue} {segment : ℕ} {planned : PlannedFetch}
    (h : planned ∈ q.queue) : planned ∈ (q.prioritizeSegment segment).queue := by
  have hmem : planned = .segment segment ∨ planned ∈ q.queue.erase (.segment segment) := by
    by_cases he : planned = .segment segment
    · exact Or.inl he
    · exact Or.inr ((List.mem_erase_of_ne he).mpr h)
  simp only [prioritizeSegment, mark_queue]
  cases hrest : q.queue.erase (PlannedFetch.segment segment) with
  | nil =>
    rw [hrest] at hmem
    simpa using hmem
  | cons head tail =>
    rw [hrest] at hmem
    cases head with
    | init =>
      simp only [List.mem_cons] at hmem ⊢
      tauto
    | segment index => simpa using hmem

@[simp] theorem supersede_revision (q : PlanQueue) : q.supersede.revision = q.revision + 1 := rfl

@[simp] theorem replaceWith_revision (q : PlanQueue) (plan : List PlannedFetch) :
    (q.replaceWith plan).revision = q.revision + 1 := by
  have hfold (plan : List PlannedFetch) (q : PlanQueue) :
      (plan.foldl (fun q planned => { q with queue := q.queue ++ [planned] }.mark planned true)
        q).revision = q.revision := by
    induction plan generalizing q with
    | nil => rfl
    | cons planned plan ih =>
      rw [List.foldl_cons, ih, mark_revision]
  exact hfold plan _

@[simp] theorem requeueIfCurrent_revision (q : PlanQueue) (work : Work) :
    (q.requeueIfCurrent work).1.revision = q.revision := by
  simp only [requeueIfCurrent]
  split
  · rfl
  · exact mark_revision _ _ _

theorem mem_requeueIfCurrent {q : PlanQueue} {work : Work} {planned : PlannedFetch}
    (h : planned ∈ q.queue) : planned ∈ (q.requeueIfCurrent work).1.queue := by
  simp only [requeueIfCurrent]
  split
  · exact h
  · have happ := List.takeWhile_append_dropWhile
      (p := fun queued => decide (queued ≤ work.planned)) (l := q.queue)
    rw [← happ, List.mem_append] at h
    simp only [mark_queue, List.mem_append, List.mem_cons]
    tauto

/-- Work of the current plan is on the plan once it was put back. -/
theorem requeueIfCurrent_mem {q : PlanQueue} {work : Work} (h : work.revision = q.revision) :
    work.planned ∈ (q.requeueIfCurrent work).1.queue := by
  by_cases hmem : work.planned ∈ q.queue
  · exact mem_requeueIfCurrent hmem
  · have hfresh : ¬ (q.revision ≠ work.revision ∨ work.planned ∈ q.queue) := by
      rintro (hne | hin)
      · exact hne h.symm
      · exact hmem hin
    simp only [requeueIfCurrent]
    rw [if_neg hfresh]
    simp

end PlanQueue

/-- Init when it is missing, the probe when it lies before the start, then the tail. -/
def rebuildPlan (numSegments : ℕ) (needsInit : Bool) (fromSeg : ℕ) (probeSeg : Option ℕ) :
    List PlannedFetch :=
  (if needsInit then [.init] else []) ++
    ((probeSeg.filter fun probe => probe < fromSeg).map .segment).toList ++
    (List.range' fromSeg (numSegments - fromSeg)).map .segment

end HlsPlanQueue

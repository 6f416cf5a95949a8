import Kithara.HlsPlanQueue
import Mathlib.Data.List.Basic
import Mathlib.Data.List.Perm.Basic
import Mathlib.Data.List.Nodup

/-! The membership mirror of a fetch plan over every run of its mutations. The plan never holds
an entry twice, so that one pop may clear the flag of what it took; with that, each mutation
leaves every flag equal to membership. -/
namespace PlanMirror

open HlsPlanQueue PlanQueue

def rebuildQueue (q : PlanQueue) (numSegments : ℕ) (needsInit : Bool) (fromSeg : ℕ)
    (probeSeg : Option ℕ) : PlanQueue :=
  q.replaceWith (rebuildPlan numSegments needsInit fromSeg probeSeg)

def enqueueBodyFetchForSize (q : PlanQueue) (planned : PlannedFetch) : PlanQueue :=
  if planned ∈ q.queue then q else q.pushFront planned

inductive Mutation where
  | rebuild (numSegments : ℕ) (needsInit : Bool) (fromSeg : ℕ) (probeSeg : Option ℕ)
  | supersede
  | pop
  | enqueueBody (planned : PlannedFetch)
  | prioritize (segment : ℕ)
  | requeue (work : Work)
  deriving DecidableEq

def apply (q : PlanQueue) : Mutation → PlanQueue
  | .rebuild numSegments needsInit fromSeg probeSeg =>
    rebuildQueue q numSegments needsInit fromSeg probeSeg
  | .supersede => q.supersede
  | .pop => (q.popFront.map Prod.snd).getD q
  | .enqueueBody planned => enqueueBodyFetchForSize q planned
  | .prioritize segment => q.prioritizeSegment segment
  | .requeue work => (q.requeueIfCurrent work).1

def run (q : PlanQueue) (mutations : List Mutation) : PlanQueue := mutations.foldl apply q

/-- An entry the mirror has a flag for. -/
def Mirrored (q : PlanQueue) : PlannedFetch → Prop
  | .init => True
  | .segment index => index < q.segmentsPlanned.length

structure Mirrors (q : PlanQueue) : Prop where
  single : q.queue.Nodup
  member : ∀ entry, Mirrored q entry → (q.planned entry = true ↔ entry ∈ q.queue)

@[simp] theorem mark_flags (q : PlanQueue) (entry : PlannedFetch) (value : Bool) :
    (q.mark entry value).segmentsPlanned.length = q.segmentsPlanned.length := by
  cases entry with
  | init => rfl
  | segment index => exact List.length_set

@[simp] theorem mirrored_mark {q : PlanQueue} {entry other : PlannedFetch} {value : Bool} :
    Mirrored (q.mark entry value) other ↔ Mirrored q other := by
  cases other with
  | init => exact Iff.rfl
  | segment index => rw [Mirrored, Mirrored, mark_flags]

theorem planned_mark {q : PlanQueue} {entry other : PlannedFetch} {value : Bool}
    (h : Mirrored q other) :
    (q.mark entry value).planned other = if other = entry then value else q.planned other := by
  cases entry with
  | init =>
    cases other with
    | init => rfl
    | segment index => rfl
  | segment index =>
    cases other with
    | init => rfl
    | segment other =>
      have hlt : other < q.segmentsPlanned.length := h
      simp only [mark, planned, PlannedFetch.segment.injEq, List.getD_eq_getElem?_getD]
      by_cases heq : other = index
      · subst heq
        rw [if_pos rfl, List.getElem?_set_self hlt, Option.getD_some]
      · rw [if_neg heq, List.getElem?_set_ne (Ne.symm heq)]

/-- A plan with the same flags and another order mirrors as long as it holds the same entries. -/
theorem mirrors_marked {q q' : PlanQueue} {entry : PlannedFetch} {value : Bool}
    {queue : List PlannedFetch} (h : Mirrors q) (hq : q' = { q with queue := queue }.mark entry value)
    (hsingle : queue.Nodup)
    (hmember : ∀ other, other ∈ queue ↔ if other = entry then value = true else other ∈ q.queue) :
    Mirrors q' := by
  subst hq
  refine ⟨by rwa [mark_queue], ?_⟩
  intro other hother
  rw [mirrored_mark] at hother
  rw [planned_mark hother, mark_queue, hmember other]
  split
  · exact Iff.rfl
  · exact h.member other hother

theorem pushFront_mirrors {q : PlanQueue} {entry : PlannedFetch} (h : Mirrors q)
    (hnew : entry ∉ q.queue) : Mirrors (q.pushFront entry) := by
  refine mirrors_marked h rfl (List.nodup_cons.mpr ⟨hnew, h.single⟩) ?_
  intro other
  by_cases heq : other = entry
  · simp [heq]
  · simp [heq]

theorem enqueueBody_mirrors {q : PlanQueue} {entry : PlannedFetch} (h : Mirrors q) :
    Mirrors (enqueueBodyFetchForSize q entry) := by
  unfold enqueueBodyFetchForSize
  split
  · exact h
  · next hnew => exact pushFront_mirrors h hnew

theorem popFront_mirrors {q q' : PlanQueue} {work : Work} (h : Mirrors q)
    (hpop : q.popFront = some (work, q')) : Mirrors q' := by
  unfold popFront at hpop
  cases hq : q.queue with
  | nil =>
    rw [hq] at hpop
    cases hpop
  | cons head rest =>
    rw [hq] at hpop
    cases hpop
    have hsingle := h.single
    rw [hq, List.nodup_cons] at hsingle
    refine mirrors_marked h rfl hsingle.2 ?_
    intro other
    rw [hq]
    by_cases heq : other = head
    · subst heq
      simp [hsingle.1]
    · simp [heq]

/-- Promotion moves the entry to the front, or right behind a leading init. -/
theorem prioritizeSegment_eq (q : PlanQueue) (segment : ℕ) : ∃ queue,
    q.prioritizeSegment segment = { q with queue := queue }.mark (.segment segment) true ∧
      queue.Perm (.segment segment :: q.queue.erase (.segment segment)) := by
  simp only [prioritizeSegment]
  generalize q.queue.erase (.segment segment) = rest
  cases rest with
  | nil => exact ⟨_, rfl, List.Perm.refl _⟩
  | cons head tail =>
    cases head with
    | init => exact ⟨_, rfl, List.Perm.swap _ _ _⟩
    | segment index => exact ⟨_, rfl, List.Perm.refl _⟩

theorem prioritizeSegment_mirrors {q : PlanQueue} {segment : ℕ} (h : Mirrors q) :
    Mirrors (q.prioritizeSegment segment) := by
  obtain ⟨queue, hq, hperm⟩ := prioritizeSegment_eq q segment
  refine mirrors_marked h hq ?_ ?_
  · refine (hperm.nodup_iff).mpr (List.nodup_cons.mpr ⟨h.single.not_mem_erase, ?_⟩)
    exact h.single.erase _
  · intro other
    rw [hperm.mem_iff]
    by_cases heq : other = .segment segment
    · simp [heq]
    · simp [heq, List.mem_erase_of_ne heq]

theorem requeue_mirrors {q : PlanQueue} {work : Work} (h : Mirrors q) :
    Mirrors (q.requeueIfCurrent work).1 := by
  unfold requeueIfCurrent
  split
  · exact h
  · next hfresh =>
    have hnew : work.planned ∉ q.queue := fun hin => hfresh (.inr hin)
    have hperm : (q.queue.takeWhile (fun queued => decide (queued ≤ work.planned)) ++ work.planned ::
        q.queue.dropWhile (fun queued => decide (queued ≤ work.planned))).Perm
        (work.planned :: q.queue) := by
      have hmiddle : (q.queue.takeWhile (fun queued => decide (queued ≤ work.planned)) ++
          work.planned :: q.queue.dropWhile (fun queued => decide (queued ≤ work.planned))).Perm
          (work.planned :: (q.queue.takeWhile (fun queued => decide (queued ≤ work.planned)) ++
            q.queue.dropWhile (fun queued => decide (queued ≤ work.planned)))) := List.perm_middle
      rwa [List.takeWhile_append_dropWhile] at hmiddle
    refine mirrors_marked h rfl ((hperm.nodup_iff).mpr (List.nodup_cons.mpr ⟨hnew, h.single⟩)) ?_
    intro other
    rw [hperm.mem_iff]
    by_cases heq : other = work.planned
    · simp [heq]
    · simp [heq]

theorem refill_mirrors {plan : List PlannedFetch} {q : PlanQueue} (h : Mirrors q)
    (hplan : (q.queue ++ plan).Nodup) :
    Mirrors (plan.foldl (fun q planned => { q with queue := q.queue ++ [planned] }.mark planned true)
      q) := by
  induction plan generalizing q with
  | nil => exact h
  | cons entry plan ih =>
    have hsplit : (q.queue ++ [entry] ++ plan).Nodup := by
      rwa [List.append_assoc, List.singleton_append]
    have hnew : (q.queue ++ [entry]).Nodup := (List.nodup_append.mp hsplit).1
    rw [List.foldl_cons]
    refine ih ?_ ?_
    · refine mirrors_marked h rfl hnew ?_
      intro other
      by_cases heq : other = entry
      · simp [heq]
      · simp [heq]
    · rwa [mark_queue]

theorem replaceWith_mirrors {q : PlanQueue} {plan : List PlannedFetch} (hplan : plan.Nodup) :
    Mirrors (q.replaceWith plan) := by
  refine refill_mirrors ⟨List.nodup_nil, ?_⟩ hplan
  intro entry hentry
  cases entry with
  | init => simp [planned]
  | segment index =>
    have hcleared : (List.map (fun _ => false) q.segmentsPlanned).getD index false = false := by
      rw [List.map_const', List.getD_eq_getElem?_getD, List.getElem?_replicate]
      split <;> rfl
    exact iff_of_false (by rw [planned, hcleared]; exact Bool.false_ne_true) List.not_mem_nil

theorem rebuildPlan_nodup (numSegments : ℕ) (needsInit : Bool) (fromSeg : ℕ)
    (probeSeg : Option ℕ) : (rebuildPlan numSegments needsInit fromSeg probeSeg).Nodup := by
  have hinjective : Function.Injective PlannedFetch.segment :=
    fun _ _ h => PlannedFetch.segment.inj h
  have htail : ((List.range' fromSeg (numSegments - fromSeg)).map PlannedFetch.segment).Nodup :=
    List.Nodup.map hinjective List.nodup_range'
  have hprobe : (((probeSeg.filter fun probe => probe < fromSeg).map
      PlannedFetch.segment).toList ++
      (List.range' fromSeg (numSegments - fromSeg)).map PlannedFetch.segment).Nodup := by
    cases hp : probeSeg.filter fun probe => probe < fromSeg with
    | none => exact htail
    | some probe =>
      have hlt : probe < fromSeg := by
        have := (Option.filter_eq_some_iff.mp hp).2
        simpa using this
      refine List.nodup_cons.mpr ⟨?_, htail⟩
      intro hmem
      obtain ⟨index, hindex, heq⟩ := List.mem_map.mp hmem
      cases heq
      rw [List.mem_range'_1] at hindex
      omega
  unfold rebuildPlan
  cases needsInit with
  | false => exact hprobe
  | true =>
    refine List.nodup_cons.mpr ⟨?_, hprobe⟩
    simp

theorem apply_mirrors {q : PlanQueue} (h : Mirrors q) (mutation : Mutation) :
    Mirrors (apply q mutation) := by
  cases mutation with
  | rebuild numSegments needsInit fromSeg probeSeg =>
    exact replaceWith_mirrors (rebuildPlan_nodup _ _ _ _)
  | supersede => exact ⟨h.single, h.member⟩
  | pop =>
    unfold apply
    cases hpop : q.popFront with
    | none => exact h
    | some taken =>
      obtain ⟨work, rest⟩ := taken
      exact popFront_mirrors h hpop
  | enqueueBody entry => exact enqueueBody_mirrors h
  | prioritize segment => exact prioritizeSegment_mirrors h
  | requeue work => exact requeue_mirrors h

theorem run_mirrors {q : PlanQueue} (h : Mirrors q) (mutations : List Mutation) :
    Mirrors (run q mutations) := by
  induction mutations generalizing q with
  | nil => exact h
  | cons mutation mutations ih => exact ih (apply_mirrors h mutation)

theorem new_mirrors (numSegments : ℕ) : Mirrors (PlanQueue.new numSegments) := by
  refine ⟨List.nodup_nil, ?_⟩
  intro entry _
  cases entry with
  | init => exact iff_of_false Bool.false_ne_true List.not_mem_nil
  | segment index =>
    refine iff_of_false ?_ List.not_mem_nil
    rw [planned, PlanQueue.new, List.getD_eq_getElem?_getD, List.getElem?_replicate]
    split <;> exact Bool.false_ne_true

theorem refill_flags (plan : List PlannedFetch) (q : PlanQueue) :
    (plan.foldl (fun q planned => { q with queue := q.queue ++ [planned] }.mark planned true)
      q).segmentsPlanned.length = q.segmentsPlanned.length := by
  induction plan generalizing q with
  | nil => rfl
  | cons entry plan ih => rw [List.foldl_cons, ih, mark_flags]

theorem apply_flags (q : PlanQueue) (mutation : Mutation) :
    (apply q mutation).segmentsPlanned.length = q.segmentsPlanned.length := by
  cases mutation with
  | rebuild numSegments needsInit fromSeg probeSeg =>
    refine (refill_flags _ _).trans ?_
    exact List.length_map _
  | supersede => rfl
  | pop =>
    simp only [apply, popFront]
    cases q.queue with
    | nil => rfl
    | cons head rest => exact mark_flags _ _ _
  | enqueueBody entry =>
    change (enqueueBodyFetchForSize q entry).segmentsPlanned.length = _
    unfold enqueueBodyFetchForSize
    split
    · rfl
    · exact mark_flags _ _ _
  | prioritize segment => exact mark_flags _ _ _
  | requeue work =>
    change (q.requeueIfCurrent work).1.segmentsPlanned.length = _
    unfold requeueIfCurrent
    split
    · rfl
    · exact mark_flags _ _ _

theorem run_flags (q : PlanQueue) (mutations : List Mutation) :
    (run q mutations).segmentsPlanned.length = q.segmentsPlanned.length := by
  induction mutations generalizing q with
  | nil => rfl
  | cons mutation mutations ih => exact (ih _).trans (apply_flags q mutation)

/-- Mutations that name a new plan. -/
def Mutation.names : Mutation → Bool
  | .rebuild .. => true
  | .supersede => true
  | _ => false

theorem apply_revision (q : PlanQueue) (mutation : Mutation) :
    (apply q mutation).revision = q.revision + (if mutation.names then 1 else 0) := by
  cases mutation with
  | rebuild numSegments needsInit fromSeg probeSeg => exact replaceWith_revision _ _
  | supersede => rfl
  | pop =>
    unfold apply
    cases hpop : q.popFront with
    | none => rfl
    | some taken =>
      obtain ⟨work, rest⟩ := taken
      exact (popFront_eq_some hpop).2.2
  | enqueueBody entry =>
    change (enqueueBodyFetchForSize q entry).revision = _
    unfold enqueueBodyFetchForSize
    split
    · rfl
    · exact pushFront_revision _ _
  | prioritize segment => exact prioritizeSegment_revision _ _
  | requeue work => exact requeueIfCurrent_revision _ _

theorem run_revision (q : PlanQueue) (mutations : List Mutation) :
    (run q mutations).revision = q.revision + mutations.countP Mutation.names := by
  induction mutations generalizing q with
  | nil => rfl
  | cons mutation mutations ih =>
    rw [List.countP_cons]
    refine (ih _).trans ?_
    rw [apply_revision]
    omega

/-- Work of another revision is refused, and the plan and its mirror stay as they were. -/
theorem requeue_refused {q : PlanQueue} {work : Work} (h : work.revision ≠ q.revision) :
    q.requeueIfCurrent work = (q, false) := by
  unfold requeueIfCurrent
  rw [if_pos (.inl (Ne.symm h))]

/-- After any mutations the mirror is the plan, which holds nothing twice; and work popped before
a later plan was named changes nothing when it comes back. -/
theorem mirror_matches (numSegments : ℕ) (mutations : List Mutation) :
    (run (PlanQueue.new numSegments) mutations).queue.Nodup ∧
    ((run (PlanQueue.new numSegments) mutations).planned .init = true ↔
      .init ∈ (run (PlanQueue.new numSegments) mutations).queue) ∧
    (∀ i < numSegments, (run (PlanQueue.new numSegments) mutations).planned (.segment i) = true ↔
      .segment i ∈ (run (PlanQueue.new numSegments) mutations).queue) ∧
    (∀ work : Work, work.revision ≠ (run (PlanQueue.new numSegments) mutations).revision →
      (run (PlanQueue.new numSegments) mutations).requeueIfCurrent work =
        (run (PlanQueue.new numSegments) mutations, false)) ∧
    (∀ (later : List Mutation) (work : Work), (∃ mutation ∈ later, mutation.names = true) →
      work.revision = (run (PlanQueue.new numSegments) mutations).revision →
      (run (PlanQueue.new numSegments) (mutations ++ later)).requeueIfCurrent work =
        (run (PlanQueue.new numSegments) (mutations ++ later), false)) := by
  have h := run_mirrors (new_mirrors numSegments) mutations
  refine ⟨h.single, h.member .init trivial, ?_, fun work hwork => requeue_refused hwork, ?_⟩
  · intro i hi
    refine h.member (.segment i) ?_
    rw [Mirrored, run_flags]
    simpa [PlanQueue.new] using hi
  · intro later work hnames hwork
    refine requeue_refused ?_
    have hlater : 0 < later.countP Mutation.names := List.countP_pos_iff.mpr hnames
    rw [hwork, run_revision, run_revision, List.countP_append]
    omega

end PlanMirror

import Kithara.HlsWorkHolders
import Mathlib.Data.List.Perm.Basic

/-! Work that dispatch took off the plan is accounted for as long as its revision is current: its
slot is settled, somebody holds it, or the plan has it again. -/
namespace HlsNoLostWork

open HlsPlanQueue HlsSegmentSlot HlsFetchClaim HlsDispatch HlsWorkHolders TransitionSystem

theorem moves_plan {v : Variant} {s : State} {plan : PlanQueue}
    (revision : plan.revision = s.plan.revision) (queue : ∀ p ∈ s.plan.queue, p ∈ plan.queue) :
    Moves v s { s with plan := plan } where
  revision := revision
  popped := rfl
  downloading := fun _ => rfl
  settled := fun _ => rfl
  queue := queue
  claims := List.Perm.refl _
  known := fun _ hw => hw
  passedOn := fun _ hw _ _ => Or.inr (Or.inr (Or.inl hw))

theorem moves_slot {v : Variant} {s : State} {planned : PlannedFetch} {slot : SegmentSlotState}
    (downloading : slot.flags.downloading = (s.slots planned).flags.downloading)
    (settled : slot.settled = (s.slots planned).settled) : Moves v s (s.setSlot planned slot) where
  revision := rfl
  popped := rfl
  downloading := by
    intro p
    by_cases hp : p = planned
    · subst hp
      simpa [State.setSlot] using downloading
    · simp [State.setSlot, hp]
  settled := by
    intro p
    by_cases hp : p = planned
    · subst hp
      simpa [State.setSlot] using settled
    · simp [State.setSlot, hp]
  queue := fun _ hp => hp
  claims := List.Perm.refl _
  known := fun _ hw => hw
  passedOn := fun _ hw _ _ => Or.inr (Or.inr (Or.inl hw))

/-- A pass that lets go of work without a claim has found the slot settled or none at all. -/
theorem moves_pass {v : Variant} {s : State} {pass pass' : Pass} (at_pass : s.pass = some pass)
    (live : Stage.live pass'.stage = Stage.live pass.stage)
    (known : ∀ w ∈ pass'.deferred ++ Stage.loose pass'.stage,
      w ∈ pass.deferred ++ Stage.loose pass.stage)
    (kept : ∀ w ∈ pass.deferred ++ Stage.loose pass.stage, v.entry w.planned = true →
      w ∈ pass'.deferred ++ Stage.loose pass'.stage ∨ (s.slots w.planned).settled = true) :
    Moves v s { s with pass := some pass' } where
  revision := rfl
  popped := rfl
  downloading := fun _ => rfl
  settled := fun _ => rfl
  queue := fun _ hp => hp
  claims := by
    simp only [HlsWorkHolders.live, at_pass, Option.elim, live]
    exact List.Perm.refl _
  known := by
    intro w hw
    rcases List.mem_append.mp hw with hw | hw
    · exact List.mem_append_left _ (by simpa only [at_pass, Option.elim] using known w hw)
    · exact List.mem_append_right _ hw
  passedOn := by
    intro w hw he _
    rcases List.mem_append.mp hw with hw | hw
    · simp only [at_pass, Option.elim] at hw
      rcases kept w hw he with hk | hs
      · exact Or.inr (Or.inr (Or.inl (List.mem_append_left _ hk)))
      · exact Or.inl hs
    · exact Or.inr (Or.inr (Or.inl (List.mem_append_right _ hw)))

theorem moves_hand {v : Variant} {s : State} {pass pass' : Pass} (at_pass : s.pass = some pass)
    (live : Stage.live pass'.stage = Stage.live pass.stage)
    (loose : pass'.deferred ++ Stage.loose pass'.stage =
      pass.deferred ++ Stage.loose pass.stage) :
    Moves v s { s with pass := some pass' } := by
  apply moves_pass at_pass live
  · intro w hw
    exact loose ▸ hw
  · intro w hw _
    exact Or.inl (loose ▸ hw)

theorem moves_drop {v : Variant} {s : State} {pass : Pass} (at_pass : s.pass = some pass)
    {work : Work} (live : Stage.live pass.stage = []) (loose : Stage.loose pass.stage = [work])
    (done : v.entry work.planned = true → (s.slots work.planned).settled = true) :
    Moves v s { s with pass := some { pass with stage := .ready } } := by
  apply moves_pass at_pass
  · exact live.symm
  · intro w hw
    simp only [Stage.loose, List.append_nil] at hw
    exact List.mem_append_left _ hw
  · intro w hw he
    rw [loose] at hw
    rcases List.mem_append.mp hw with hw | hw
    · exact Or.inl (List.mem_append_left _ hw)
    · obtain rfl := List.mem_singleton.mp hw
      exact Or.inr (done he)

theorem moves_begin {v : Variant} {s : State} (idle : s.pass = none) {pass : Pass}
    {segment : Option ℕ} (stage : pass.stage = .promoting segment) (fresh : pass.deferred = []) :
    Moves v s { s with pass := some pass } where
  revision := rfl
  popped := rfl
  downloading := fun _ => rfl
  settled := fun _ => rfl
  queue := fun _ hp => hp
  claims := by simp [live, idle, stage, Stage.live]
  known := by simp [transit, idle, stage, fresh, Stage.loose]
  passedOn := by
    intro w hw _ _
    right; right; left
    simpa [transit, idle, stage, fresh, Stage.loose] using hw

theorem moves_prioritize {v : Variant} {s : State} {pass : Pass} (at_pass : s.pass = some pass)
    {segment : Option ℕ} (stage : pass.stage = .promoting segment) :
    Moves v s
      { s with
        plan := segment.elim s.plan s.plan.prioritizeSegment
        pass := some { pass with stage := .ready } } := by
  have hplan : Moves v s { s with plan := segment.elim s.plan s.plan.prioritizeSegment } := by
    apply moves_plan
    · cases segment with
      | none => rfl
      | some index => exact PlanQueue.prioritizeSegment_revision _ _
    · intro p hp
      cases segment with
      | none => exact hp
      | some index => exact PlanQueue.mem_prioritizeSegment hp
  have hpass : Moves v { s with plan := segment.elim s.plan s.plan.prioritizeSegment }
      { s with
        plan := segment.elim s.plan s.plan.prioritizeSegment
        pass := some { pass with stage := .ready } } :=
    moves_hand at_pass (by rw [stage]; rfl) (by rw [stage]; rfl)
  exact hplan.trans hpass

theorem moves_command {v : Variant} {s : State} {pass : Pass} (at_pass : s.pass = some pass)
    {work : Work} (stage : pass.stage = .claimed work) (remaining : ℕ) :
    Moves v s
      { s.setSlot work.planned (s.slots work.planned).clearAcquireFailures with
        claims := s.claims ++ [work]
        pass := some { pass with stage := .ready, remaining := remaining } } := by
  have hslot : Moves v s
      (s.setSlot work.planned (s.slots work.planned).clearAcquireFailures) :=
    moves_slot rfl rfl
  refine ⟨rfl, rfl, hslot.downloading, hslot.settled, fun _ hp => hp, ?_, ?_, ?_⟩
  · simp only [live, at_pass, stage, Option.elim, Stage.live, List.nil_append]
    exact List.perm_append_comm
  · intro w hw
    simpa [transit, at_pass, stage, Stage.loose, State.setSlot] using hw
  · intro w hw _ _
    right; right; left
    simpa [transit, at_pass, stage, Stage.loose, State.setSlot] using hw

theorem moves_finish {v : Variant} {s : State} {pass : Pass} (at_pass : s.pass = some pass)
    (stage : pass.stage = .leaving) :
    Moves v s { s with plan := requeueDeferred s.plan pass.deferred, pass := none } := by
  obtain ⟨hrev, hkeep, hback⟩ := requeueDeferred_spec s.plan pass.deferred
  refine ⟨hrev, rfl, fun _ => rfl, fun _ => rfl, hkeep, ?_, ?_, ?_⟩
  · simp [live, at_pass, stage, Stage.live]
  · intro w hw
    exact List.mem_append_right _ hw
  · intro w hw _ hr
    simp only [transit, at_pass, stage, Option.elim, Stage.loose, List.append_nil] at hw
    rcases List.mem_append.mp hw with hw | hw
    · exact Or.inr (Or.inr (Or.inr (hback w hw hr)))
    · exact Or.inr (Or.inr (Or.inl hw))

theorem moves_requeue {v : Variant} {s : State} {ret : ℕ} {work : Work}
    (hret : s.returns[ret]? = some work) :
    Moves v s
      { s with
        plan := (s.plan.requeueIfCurrent work).1
        returns := s.returns.eraseIdx ret } := by
  obtain ⟨hlt, hget⟩ := List.getElem?_eq_some_iff.mp hret
  have hperm := List.getElem_cons_eraseIdx_perm hlt
  rw [hget] at hperm
  refine ⟨PlanQueue.requeueIfCurrent_revision _ _, rfl, fun _ => rfl, fun _ => rfl,
    fun _ hp => PlanQueue.mem_requeueIfCurrent hp, List.Perm.refl _, ?_, ?_⟩
  · intro w hw
    rcases List.mem_append.mp hw with hw | hw
    · exact List.mem_append_left _ hw
    · exact List.mem_append_right _ (hperm.mem_iff.mp (List.mem_cons_of_mem _ hw))
  · intro w hw _ hr
    rcases List.mem_append.mp hw with hw | hw
    · exact Or.inr (Or.inr (Or.inl (List.mem_append_left _ hw)))
    · rcases List.mem_cons.mp (hperm.mem_iff.mpr hw) with rfl | hw
      · exact Or.inr (Or.inr (Or.inr (PlanQueue.requeueIfCurrent_mem hr)))
      · exact Or.inr (Or.inr (Or.inl (List.mem_append_right _ hw)))

theorem givesUp_committed {s : State} {pass : Pass} (at_pass : s.pass = some pass) {work : Work}
    (stage : pass.stage = .claimed work) :
    GivesUp s { s with pass := some { pass with stage := .ready } } work := by
  refine ⟨rfl, rfl, rfl, ?_, ?_, ?_⟩
  · simp [live, at_pass, stage, Stage.live]
  · intro w hw
    simpa [transit, at_pass, stage, Stage.loose] using hw
  · intro w hw
    left
    simpa [transit, at_pass, stage, Stage.loose] using hw

theorem givesUp_unbuilt {s : State} {pass : Pass} (at_pass : s.pass = some pass) {work : Work}
    (stage : pass.stage = .claimed work) :
    GivesUp s { s with pass := some { pass with stage := .checking work } } work := by
  refine ⟨rfl, rfl, rfl, ?_, ?_, ?_⟩
  · simp [live, at_pass, stage, Stage.live]
  · intro w hw
    simp only [transit, at_pass, stage, Option.elim, Stage.loose, List.append_nil,
      List.mem_append] at hw ⊢
    tauto
  · intro w hw
    simp only [transit, at_pass, stage, Option.elim, Stage.loose, List.append_nil,
      List.mem_append, List.mem_singleton] at hw ⊢
    tauto

theorem givesUp_claim {s : State} {claim : ℕ} {work : Work}
    (hclaim : s.claims[claim]? = some work) :
    GivesUp s { s with claims := s.claims.eraseIdx claim } work := by
  obtain ⟨hlt, hget⟩ := List.getElem?_eq_some_iff.mp hclaim
  have hperm := List.getElem_cons_eraseIdx_perm hlt
  rw [hget] at hperm
  refine ⟨rfl, rfl, rfl, ?_, fun w hw => hw, fun w hw => Or.inl hw⟩
  exact ((hperm.symm).append_left _).trans List.perm_middle

/-- The settlement that loses its work: the body arrived and the commit did not. -/
def FailedCommit : Action → Prop
  | .settle _ cancelled err committed => CommitFails cancelled err committed
  | _ => False

theorem settleClaim_effect {v : Variant} {s : State} {claim : ℕ} (hlt : claim < s.claims.length)
    {ending : SegmentSlotState → Ending} (released : ∀ slot, (ending slot).Released)
    (accounted : ∀ slot, (ending slot).Accounted) : Effect v s (s.settleClaim claim ending) := by
  have hclaim := List.getElem?_eq_getElem hlt
  simp only [State.settleClaim, hclaim]
  exact Effect.ended _ _ _ (givesUp_claim hclaim) (released _) (Or.inl (accounted _))

theorem rebuild_revision (v : Variant) (plan : PlanQueue) (matched needsInit : Bool)
    (fromSeg : ℕ) (probeSeg : Option ℕ) :
    (if matched then plan.supersede
      else plan.replaceWith
        (rebuildPlan v.numSegments (v.hasInit && needsInit) fromSeg probeSeg)).revision =
      plan.revision + 1 := by
  cases matched with
  | true => exact PlanQueue.supersede_revision plan
  | false => exact PlanQueue.replaceWith_revision _ _

theorem pop_effect {v : Variant} {s : State} {pass : Pass} (at_pass : s.pass = some pass)
    (stage : pass.stage = .ready) (budget : ℕ) (segmentOffset : Option ℕ) :
    Effect v s (stepPass v budget s pass (.pop segmentOffset)) := by
  simp only [stepPass]
  cases htake : pass.takeFront s.plan segmentOffset with
  | none => exact .moved _ (moves_hand at_pass (by rw [stage]; rfl) (by rw [stage]; rfl))
  | some taken =>
    obtain ⟨work, plan⟩ := taken
    exact .taken pass work plan at_pass stage (takeFront_eq_some htake)

theorem tryClaim_effect {v : Variant} {s : State} {pass : Pass} (at_pass : s.pass = some pass)
    {work : Work} (stage : pass.stage = .popped work) (budget : ℕ) :
    Effect v s (stepPass v budget s pass .tryClaim) := by
  simp only [stepPass, stage]
  by_cases hentry : v.entry work.planned = true
  · rw [if_pos hentry]
    cases hclaim : (s.slots work.planned).tryClaim with
    | some slot => exact .won pass work slot at_pass stage hentry hclaim
    | none => exact .moved _ (moves_hand at_pass (by rw [stage]; rfl) (by rw [stage]; rfl))
  · rw [if_neg hentry]
    apply Effect.moved
    apply moves_drop at_pass
    · rw [stage]
      rfl
    · rw [stage]
      rfl
    · intro he
      exact absurd he hentry

theorem buildFetchCmd_effect {v : Variant} {s : State} {pass : Pass} (at_pass : s.pass = some pass)
    {work : Work} (stage : pass.stage = .claimed work) (budget : ℕ)
    (acquired : Except AssetsError AcquisitionResult) :
    Effect v s (stepPass v budget s pass (.buildFetchCmd acquired)) := by
  simp only [stepPass, stage]
  rcases buildFetchCmd_spec (s.slots work.planned) acquired budget with hb | ⟨o, released, hb⟩
  · rw [hb]
    exact .moved _ (moves_command at_pass stage _)
  · rw [hb]
    refine .ended _ work o (givesUp_unbuilt at_pass stage) released (Or.inr ?_)
    simp [transit, Stage.loose]

theorem checkDeferred_effect {v : Variant} {s : State} {pass : Pass} (at_pass : s.pass = some pass)
    {work : Work} (stage : pass.stage = .checking work) (budget : ℕ) :
    Effect v s (stepPass v budget s pass .checkDeferred) := by
  simp only [stepPass, stage]
  by_cases hsettled : (s.slots work.planned).settled = true
  · rw [if_pos hsettled]
    apply Effect.moved
    apply moves_drop at_pass
    · rw [stage]
      rfl
    · rw [stage]
      rfl
    · intro _
      exact hsettled
  · rw [if_neg hsettled]
    apply Effect.moved
    apply moves_hand at_pass
    · rw [stage]
      rfl
    · simp [stage, Stage.loose]

theorem next_effect {v : Variant} (budget : ℕ) {s : State} {a : Action} (ha : Enabled s a)
    (hc : ¬ FailedCommit a) : Effect v s (next v budget s a) := by
  cases a with
  | rebuild matched needsInit fromSeg probeSeg =>
    exact .replanned _ (rebuild_revision v s.plan matched needsInit fromSeg probeSeg)
  | enqueueBodyFetch planned =>
    apply Effect.moved
    apply moves_plan
    · split
      · rfl
      · exact PlanQueue.pushFront_revision _ _
    · intro p hp
      split
      · exact hp
      · rw [PlanQueue.pushFront_queue]
        exact List.mem_cons_of_mem _ hp
  | beginDispatch input => exact .moved _ (moves_begin ha rfl rfl)
  | prioritize =>
    obtain ⟨segment, ha⟩ := ha
    obtain ⟨pass, at_pass, stage⟩ := stage_eq_some ha
    simp only [next, at_pass, stepPass, stage]
    exact .moved _ (moves_prioritize at_pass stage)
  | pop segmentOffset =>
    obtain ⟨pass, at_pass, stage⟩ := stage_eq_some ha
    simp only [next, at_pass]
    exact pop_effect at_pass stage budget segmentOffset
  | tryClaim =>
    obtain ⟨work, ha⟩ := ha
    obtain ⟨pass, at_pass, stage⟩ := stage_eq_some ha
    simp only [next, at_pass]
    exact tryClaim_effect at_pass stage budget
  | committedLen =>
    obtain ⟨work, ha⟩ := ha
    obtain ⟨pass, at_pass, stage⟩ := stage_eq_some ha
    simp only [next, at_pass, stepPass, stage]
    exact .ended _ _ _ (givesUp_committed at_pass stage) (settleLoaded_released _)
      (Or.inl (settleLoaded_accounted _))
  | buildFetchCmd acquired =>
    obtain ⟨work, ha⟩ := ha
    obtain ⟨pass, at_pass, stage⟩ := stage_eq_some ha
    simp only [next, at_pass]
    exact buildFetchCmd_effect at_pass stage budget acquired
  | checkDeferred =>
    obtain ⟨work, ha⟩ := ha
    obtain ⟨pass, at_pass, stage⟩ := stage_eq_some ha
    simp only [next, at_pass]
    exact checkDeferred_effect at_pass stage budget
  | finishDispatch =>
    obtain ⟨pass, at_pass, stage⟩ := stage_eq_some ha
    simp only [next, at_pass, stepPass]
    exact .moved _ (moves_finish at_pass stage)
  | settle claim cancelled err committed =>
    exact settleClaim_effect ha (fun slot => settleInner_released slot _ _ _)
      (settleInner_accounted hc)
  | dropClaim claim =>
    exact settleClaim_effect ha intoMissing_released (fun _ => Or.inr rfl)
  | requeuePlanned ret =>
    have hret := List.getElem?_eq_getElem ha
    simp only [next, hret]
    exact .moved _ (moves_requeue hret)
  | evict planned =>
    obtain ⟨hd, hs⟩ := SegmentSlotState.markEvicted_inFlight ha
    exact .moved _ (moves_slot (hd.trans ha.symm) hs)
  | markSlow planned =>
    obtain ⟨hd, hs⟩ := SegmentSlotState.markSlow_same (s.slots planned)
    exact .moved _ (moves_slot hd hs)
  | noteReaderDemand planned =>
    have hflags := SegmentSlotState.noteReaderDemand_same (s.slots planned)
    apply Effect.moved
    apply moves_slot
    · rw [hflags]
    · simp only [SegmentSlotState.settled, hflags]

/-- A failed commit finds its work of the current plan back in the plan or on its way there. -/
def CommitKept (s : State) : Action → Prop
  | .settle claim cancelled err committed =>
    CommitFails cancelled err committed → ∀ work, s.claims[claim]? = some work →
      work.revision = s.plan.revision → work ∈ transit s ∨ work.planned ∈ s.plan.queue
  | _ => True

theorem failedCommit_next (v : Variant) (budget : ℕ) {s : State} {a : Action} (ha : Enabled s a)
    (hc : FailedCommit a) : ∃ claim work, s.claims[claim]? = some work ∧
      next v budget s a =
        ({ s with claims := s.claims.eraseIdx claim } : State).endClaim work
          (intoMissing (s.slots work.planned)) ∧
      (CommitKept s a ↔ (work.revision = s.plan.revision →
        work ∈ transit s ∨ work.planned ∈ s.plan.queue)) := by
  cases a with
  | settle claim cancelled err committed =>
    have hclaim := List.getElem?_eq_getElem ha
    refine ⟨claim, _, hclaim, ?_, ?_⟩
    · simp only [next, State.settleClaim, hclaim, settleInner_commitFails hc]
    · constructor
      · intro hk
        exact hk hc _ hclaim
      · intro hk _ work hwork
        rw [hclaim] at hwork
        cases hwork
        exact hk
  | _ => cases hc

theorem next_invariant {v : Variant} {budget : ℕ} {s : State} {a : Action} (h : Invariant v s)
    (ha : Enabled s a) : Invariant v (next v budget s a) := by
  by_cases hc : FailedCommit a
  · obtain ⟨claim, work, hclaim, hnext, _⟩ := failedCommit_next v budget ha hc
    rw [hnext]
    exact (givesUp_claim hclaim).invariant h (intoMissing_released _)
  · exact (next_effect budget ha hc).invariant h

theorem next_noWorkLost_iff {v : Variant} {budget : ℕ} {s : State} {a : Action}
    (h : Invariant v s) (hs : NoWorkLost v s) (ha : Enabled s a) :
    NoWorkLost v (next v budget s a) ↔ CommitKept s a := by
  by_cases hc : FailedCommit a
  · obtain ⟨claim, work, hclaim, hnext, hkept⟩ := failedCommit_next v budget ha hc
    have hlost : ¬ (intoMissing (s.slots work.planned)).Accounted := by
      rintro (hsettled | hreturned)
      · cases hsettled
      · cases hreturned
    rw [hnext, hkept, (givesUp_claim hclaim).noWorkLost_iff h hs]
    constructor
    · intro hw hr
      exact (hw hr).resolve_left hlost
    · intro hw hr
      exact Or.inr (hw hr)
  · refine ⟨fun _ => ?_, fun _ => (next_effect budget ha hc).noWorkLost h hs⟩
    cases a with
    | settle claim cancelled err committed => exact fun hfails => absurd hfails hc
    | _ => trivial

theorem start_invariant (v : Variant) : Invariant v (start v) where
  claimed := fun _ => rfl
  exclusive := by
    intro p hd
    cases hd
  housed := fun _ hw => absurd hw List.not_mem_nil
  earlier := fun _ hw => absurd hw List.not_mem_nil
  known := by
    rintro w (hw | hw)
    · exact absurd hw List.not_mem_nil
    · exact absurd hw List.not_mem_nil

theorem start_noWorkLost (v : Variant) : NoWorkLost v (start v) :=
  fun _ hw => absurd hw List.not_mem_nil

def Quiescent (s : State) : Prop := s.pass = none ∧ s.returns = []

def HeldOnce (s : State) (planned : PlannedFetch) : Prop :=
  (s.slots planned).flags.downloading = true ∧
    ((live s).map Work.planned).count planned = 1

def WorkAccounted (v : Variant) (s : State) : Prop :=
  ∀ work ∈ s.popped, work.revision = s.plan.revision → v.entry work.planned = true →
    (s.slots work.planned).flags.loaded = true ∨ (s.slots work.planned).flags.failed = true ∨
      HeldOnce s work.planned ∨ work.planned ∈ s.plan.queue

theorem heldOnce_of_live {v : Variant} {s : State} (h : Invariant v s) {work : Work}
    (hw : work ∈ live s) : HeldOnce s work.planned := by
  have hperm := List.perm_cons_erase hw
  have hd := (Claimed.downloading (Claimed.perm h.claimed hperm)).1
  refine ⟨hd, ?_⟩
  rw [h.claimed work.planned, if_pos hd]

theorem quiescent_accounted {v : Variant} {s : State} (h : Invariant v s) (hn : NoWorkLost v s)
    (hq : Quiescent s) : WorkAccounted v s := by
  intro work hw hr he
  rcases hn work hw hr he with hs | hl | ht | hqueued
  · rcases Bool.or_eq_true_iff.mp hs with hloaded | hfailed
    · exact Or.inl hloaded
    · exact Or.inr (Or.inl hfailed)
  · exact Or.inr (Or.inr (Or.inl (heldOnce_of_live h hl)))
  · have hnone : transit s = [] := by simp [transit, hq.1, hq.2]
    rw [hnone] at ht
    exact absurd ht List.not_mem_nil
  · exact Or.inr (Or.inr (Or.inr hqueued))

/-- In every run no work of the current plan is lost exactly if every failed commit finds its
work back in the plan or on its way there; then every quiescent point accounts for all of it. -/
theorem work_kept_iff_commits_kept (v : Variant) (budget : ℕ) (as : List Action)
    (h : (machine v budget).ValidTrace (start v) as) :
    ((machine v budget).Throughout (NoWorkLost v) (start v) as ↔
        (machine v budget).Along CommitKept (start v) as) ∧
      ((machine v budget).Along CommitKept (start v) as →
        ∀ bs, bs <+: as → Quiescent ((machine v budget).runTrace (start v) bs) →
          WorkAccounted v ((machine v budget).runTrace (start v) bs)) := by
  have hiff : (machine v budget).Throughout (NoWorkLost v) (start v) as ↔
      (machine v budget).Along CommitKept (start v) as :=
    throughout_iff_along (M := machine v budget) (J := Invariant v)
      (fun _ _ hi ha => next_invariant hi ha)
      (fun _ _ hi hs ha => next_noWorkLost_iff hi hs ha) (start_invariant v) (start_noWorkLost v) h
  refine ⟨hiff, ?_⟩
  rintro hkept bs ⟨cs, rfl⟩ hq
  have hvalid := (validTrace_append.mp h).1
  have hreach : (machine v budget).Reachable (start v) ((machine v budget).runTrace (start v) bs) :=
    ⟨bs, hvalid, rfl⟩
  have hinv := reachable_invariant (I := Invariant v) (fun _ _ hi ha => next_invariant hi ha)
    (start_invariant v) hreach
  have hkeeps := throughout_iff_visited.mp (hiff.mpr hkept) bs (List.prefix_append bs cs)
  exact quiescent_accounted hinv hkeeps hq

/-- A single segment, popped by a pass of budget one whose fetch ends in `settlement`. -/
def oneFetch (settlement : List Action) : List Action :=
  [.rebuild false false 0 none,
    .beginDispatch
      { budget := 1
        waitSegment := none
        constructionSegmentEnd := none
        prefetchBase := 0
        lookAheadBytes := 0
        prefetchSegmentCap := none },
    .prioritize, .pop (some 0), .tryClaim, .buildFetchCmd (.ok .pending), .pop none,
    .finishDispatch] ++ settlement

/-- The connection is lost: the slot reverts and the segment is on the plan again. -/
theorem work_kept_lost_connection :
    (machine ⟨false, 1⟩ 3).ValidTrace (start ⟨false, 1⟩)
        (oneFetch [.settle 0 false (some .network) false, .requeuePlanned 0]) ∧
      WorkAccounted ⟨false, 1⟩ ((machine ⟨false, 1⟩ 3).runTrace (start ⟨false, 1⟩)
        (oneFetch [.settle 0 false (some .network) false, .requeuePlanned 0])) := by
  have hv : (machine ⟨false, 1⟩ 3).ValidTrace (start ⟨false, 1⟩)
      (oneFetch [.settle 0 false (some .network) false, .requeuePlanned 0]) :=
    ⟨trivial, rfl, ⟨_, rfl⟩, rfl, ⟨_, rfl⟩, ⟨_, rfl⟩, rfl, rfl, Nat.zero_lt_one, Nat.zero_lt_one,
      trivial⟩
  refine ⟨hv, (work_kept_iff_commits_kept _ _ _ hv).2 ?_ _ (List.prefix_refl _) ⟨rfl, rfl⟩⟩
  refine ⟨trivial, trivial, trivial, trivial, trivial, trivial, trivial, trivial, ?_, trivial,
    trivial⟩
  rintro ⟨_, herr, _⟩
  cases herr

/-- The body arrives and its commit fails: the slot is missing, the plan that popped it is
current, and the plan is empty. -/
theorem failed_commit_loses_work :
    (machine ⟨false, 1⟩ 3).ValidTrace (start ⟨false, 1⟩)
        (oneFetch [.settle 0 false none false]) ∧
      Quiescent ((machine ⟨false, 1⟩ 3).runTrace (start ⟨false, 1⟩)
        (oneFetch [.settle 0 false none false])) ∧
      ¬ WorkAccounted ⟨false, 1⟩ ((machine ⟨false, 1⟩ 3).runTrace (start ⟨false, 1⟩)
        (oneFetch [.settle 0 false none false])) := by
  refine ⟨⟨trivial, rfl, ⟨_, rfl⟩, rfl, ⟨_, rfl⟩, ⟨_, rfl⟩, rfl, rfl, Nat.zero_lt_one, trivial⟩,
    ⟨rfl, rfl⟩, ?_⟩
  intro haccounted
  rcases haccounted ⟨.segment 0, 1⟩ List.mem_cons_self rfl rfl with hl | hf | ⟨hd, _⟩ | hq
  · cases hl
  · cases hf
  · cases hd
  · cases hq

end HlsNoLostWork

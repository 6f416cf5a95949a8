import Kithara.HlsDispatch

/-! Who holds the work that dispatch took off the plan, and what a step may do to it: replace the
plan, pass work on, take it off the plan, win its claim or end its claim. -/
namespace HlsWorkHolders

open HlsPlanQueue HlsSegmentSlot HlsFetchClaim HlsDispatch

def Stage.live : Stage → List Work
  | .claimed work => [work]
  | _ => []

def Stage.loose : Stage → List Work
  | .popped work => [work]
  | .checking work => [work]
  | _ => []

/-- The works whose slot a claim holds, in the dispatcher's hand or in a built command. -/
def live (s : State) : List Work := (s.pass.elim [] fun pass => Stage.live pass.stage) ++ s.claims

def transit (s : State) : List Work :=
  (s.pass.elim [] fun pass => pass.deferred ++ Stage.loose pass.stage) ++ s.returns

def Safe (s : State) (work : Work) : Prop :=
  (s.slots work.planned).settled = true ∨ work ∈ live s ∨ work ∈ transit s ∨
    work.planned ∈ s.plan.queue

/-- Work of the current plan for a slot the variant has is safe once it was popped. -/
def NoWorkLost (v : Variant) (s : State) : Prop :=
  ∀ work ∈ s.popped, work.revision = s.plan.revision → v.entry work.planned = true → Safe s work

/-- A slot is in flight with one live claim and otherwise without any. -/
def Claimed (works : List Work) (slots : PlannedFetch → SegmentSlotState) : Prop :=
  ∀ p, (works.map Work.planned).count p = if (slots p).flags.downloading then 1 else 0

structure Invariant (v : Variant) (s : State) : Prop where
  claimed : Claimed (live s) s.slots
  exclusive : ∀ p, (s.slots p).Exclusive
  housed : ∀ work ∈ live s, v.entry work.planned = true
  earlier : ∀ work ∈ s.popped, work.revision ≤ s.plan.revision
  known : ∀ work, work ∈ live s ∨ work ∈ transit s → work ∈ s.popped

theorem Claimed.downloading {work : Work} {works : List Work}
    {slots : PlannedFetch → SegmentSlotState} (h : Claimed (work :: works) slots) :
    (slots work.planned).flags.downloading = true ∧
      (works.map Work.planned).count work.planned = 0 := by
  have hw := h work.planned
  rw [List.map_cons, List.count_cons_self] at hw
  by_cases hd : (slots work.planned).flags.downloading = true
  · rw [if_pos hd] at hw
    exact ⟨hd, by omega⟩
  · rw [if_neg hd] at hw
    omega

theorem Claimed.release {work : Work} {works : List Work}
    {slots : PlannedFetch → SegmentSlotState} (h : Claimed (work :: works) slots)
    {slot : SegmentSlotState} (hs : slot.flags.downloading = false) :
    Claimed works (Function.update slots work.planned slot) := by
  intro p
  by_cases hp : p = work.planned
  · subst hp
    simp [hs, (Claimed.downloading h).2]
  · have hw := h p
    rw [List.map_cons, List.count_cons_of_ne (Ne.symm hp)] at hw
    simpa [hp] using hw

theorem Claimed.take {work : Work} {works : List Work}
    {slots : PlannedFetch → SegmentSlotState} (h : Claimed works slots)
    (hfree : (slots work.planned).flags.downloading = false) {slot : SegmentSlotState}
    (hs : slot.flags.downloading = true) :
    Claimed (work :: works) (Function.update slots work.planned slot) := by
  intro p
  by_cases hp : p = work.planned
  · subst hp
    have hw := h work.planned
    simp only [hfree] at hw
    simp [hs, hw]
  · rw [List.map_cons, List.count_cons_of_ne (Ne.symm hp)]
    simpa [hp] using h p

theorem Claimed.perm {works works' : List Work} {slots : PlannedFetch → SegmentSlotState}
    (h : Claimed works slots) (hp : works.Perm works') : Claimed works' slots := by
  intro p
  rw [← (hp.map Work.planned).count_eq]
  exact h p

/-- `s'` is `s` with work passed on between its holders: no slot is claimed, released or settled,
and the work that leaves transit is settled for, is back on the plan or has no slot. -/
structure Moves (v : Variant) (s s' : State) : Prop where
  revision : s'.plan.revision = s.plan.revision
  popped : s'.popped = s.popped
  downloading : ∀ p, (s'.slots p).flags.downloading = (s.slots p).flags.downloading
  settled : ∀ p, (s'.slots p).settled = (s.slots p).settled
  queue : ∀ p ∈ s.plan.queue, p ∈ s'.plan.queue
  claims : (live s).Perm (live s')
  known : ∀ work ∈ transit s', work ∈ transit s
  passedOn : ∀ work ∈ transit s, v.entry work.planned = true → work.revision = s.plan.revision →
    Safe s' work

theorem Moves.invariant {v : Variant} {s s' : State} (m : Moves v s s') (h : Invariant v s) :
    Invariant v s' where
  claimed := by
    intro p
    rw [m.downloading p]
    exact Claimed.perm h.claimed m.claims p
  exclusive := by
    intro p hd
    rw [m.downloading p] at hd
    exact (m.settled p).trans (h.exclusive p hd)
  housed := fun work hw => h.housed work (m.claims.mem_iff.mpr hw)
  earlier := by
    rw [m.popped, m.revision]
    exact h.earlier
  known := by
    rw [m.popped]
    rintro work (hw | hw)
    · exact h.known work (Or.inl (m.claims.mem_iff.mpr hw))
    · exact h.known work (Or.inr (m.known work hw))

theorem Moves.safe {v : Variant} {s s' : State} (m : Moves v s s') {work : Work}
    (he : v.entry work.planned = true) (hr : work.revision = s.plan.revision)
    (h : Safe s work) : Safe s' work := by
  rcases h with hs | hl | ht | hq
  · exact Or.inl ((m.settled work.planned).trans hs)
  · exact Or.inr (Or.inl (m.claims.mem_iff.mp hl))
  · exact m.passedOn work ht he hr
  · exact Or.inr (Or.inr (Or.inr (m.queue _ hq)))

theorem Moves.noWorkLost {v : Variant} {s s' : State} (m : Moves v s s') (h : NoWorkLost v s) :
    NoWorkLost v s' := by
  intro work hw hr he
  rw [m.popped] at hw
  rw [m.revision] at hr
  exact m.safe he hr (h work hw hr he)

theorem Moves.trans {v : Variant} {s s' s'' : State} (m : Moves v s s') (m' : Moves v s' s'') :
    Moves v s s'' where
  revision := m'.revision.trans m.revision
  popped := m'.popped.trans m.popped
  downloading := fun p => (m'.downloading p).trans (m.downloading p)
  settled := fun p => (m'.settled p).trans (m.settled p)
  queue := fun p hp => m'.queue p (m.queue p hp)
  claims := m.claims.trans m'.claims
  known := fun work hw => m.known work (m'.known work hw)
  passedOn := by
    intro work hw he hr
    exact m'.safe he (hr.trans m.revision.symm) (m.passedOn work hw he hr)

/-- `s₁` is `s` with the claim on `work` taken out of the hands that held it. -/
structure GivesUp (s s₁ : State) (work : Work) : Prop where
  slots : s₁.slots = s.slots
  plan : s₁.plan = s.plan
  popped : s₁.popped = s.popped
  released : (live s).Perm (work :: live s₁)
  stays : ∀ w ∈ transit s, w ∈ transit s₁
  comes : ∀ w ∈ transit s₁, w ∈ transit s ∨ w = work

theorem live_endClaim (s : State) (work : Work) (o : Ending) :
    live (s.endClaim work o) = live s := rfl

theorem mem_transit_endClaim {s : State} {work w : Work} {o : Ending} :
    w ∈ transit (s.endClaim work o) ↔ w ∈ transit s ∨ (o.returned = true ∧ w = work) := by
  by_cases h : o.returned = true <;>
    simp [transit, State.endClaim, State.setSlot, h]
  tauto

theorem GivesUp.claimed {v : Variant} {s s₁ : State} {work : Work} (g : GivesUp s s₁ work)
    (h : Invariant v s) : Claimed (work :: live s₁) s.slots :=
  Claimed.perm h.claimed g.released

theorem GivesUp.invariant {v : Variant} {s s₁ : State} {work : Work} (g : GivesUp s s₁ work)
    (h : Invariant v s) {o : Ending} (ho : o.Released) : Invariant v (s₁.endClaim work o) where
  claimed := by
    have hrelease := Claimed.release (g.claimed h) ho
    rw [← g.slots] at hrelease
    exact hrelease
  exclusive := by
    intro p hd
    by_cases hp : p = work.planned
    · subst hp
      have hnone : o.slot.flags.downloading = true := by
        simpa [State.endClaim, State.setSlot] using hd
      rw [ho] at hnone
      cases hnone
    · have hslot : (s₁.endClaim work o).slots p = s.slots p := by
        simp [State.endClaim, State.setSlot, hp, g.slots]
      rw [hslot] at hd ⊢
      exact h.exclusive p hd
  housed := fun w hw => h.housed w (g.released.mem_iff.mpr (List.mem_cons_of_mem _ hw))
  earlier := by
    intro w hw
    have hp : (s₁.endClaim work o).plan = s.plan := g.plan
    rw [hp]
    exact h.earlier w (g.popped ▸ hw)
  known := by
    have hwork : work ∈ s.popped :=
      h.known work (Or.inl (g.released.mem_iff.mpr List.mem_cons_self))
    rintro w (hw | hw)
    · have hl := g.released.mem_iff.mpr (List.mem_cons_of_mem work hw)
      exact g.popped ▸ h.known w (Or.inl hl)
    · rcases mem_transit_endClaim.mp hw with ht | ⟨_, rfl⟩
      · rcases g.comes w ht with hb | rfl
        · exact g.popped ▸ h.known w (Or.inr hb)
        · exact g.popped ▸ hwork
      · exact g.popped ▸ hwork

theorem GivesUp.safe {v : Variant} {s s₁ : State} {work : Work} (g : GivesUp s s₁ work)
    (h : Invariant v s) (o : Ending) {w : Work} (hne : w ≠ work) (hs : Safe s w) :
    Safe (s₁.endClaim work o) w := by
  rcases hs with hsettled | hl | ht | hq
  · have hd := (Claimed.downloading (g.claimed h)).1
    have hp : w.planned ≠ work.planned := by
      intro hp
      rw [hp, h.exclusive _ hd] at hsettled
      cases hsettled
    exact Or.inl (by simpa [State.endClaim, State.setSlot, hp, g.slots] using hsettled)
  · rcases List.mem_cons.mp (g.released.mem_iff.mp hl) with rfl | hl
    · exact absurd rfl hne
    · exact Or.inr (Or.inl hl)
  · exact Or.inr (Or.inr (Or.inl (mem_transit_endClaim.mpr (Or.inl (g.stays w ht)))))
  · have hplan : (s₁.endClaim work o).plan = s.plan := g.plan
    exact Or.inr (Or.inr (Or.inr (by rw [hplan]; exact hq)))

/-- The work whose claim ended is safe if its ending saw to it, and otherwise only where it was
queued or in transit apart from the claim. -/
theorem GivesUp.safe_self_iff {v : Variant} {s s₁ : State} {work : Work} (g : GivesUp s s₁ work)
    (h : Invariant v s) (o : Ending) :
    Safe (s₁.endClaim work o) work ↔
      o.Accounted ∨ work ∈ transit s₁ ∨ work.planned ∈ s.plan.queue := by
  have hlive : work ∉ live s₁ := by
    intro hw
    have hcount := (Claimed.downloading (g.claimed h)).2
    exact List.count_eq_zero.mp hcount (List.mem_map_of_mem hw)
  have hplan : (s₁.endClaim work o).plan = s.plan := g.plan
  have hslot : (s₁.endClaim work o).slots work.planned = o.slot := by
    simp [State.endClaim, State.setSlot]
  rw [Safe, hslot, hplan, live_endClaim, mem_transit_endClaim, Ending.Accounted]
  tauto

theorem GivesUp.noWorkLost_iff {v : Variant} {s s₁ : State} {work : Work}
    (g : GivesUp s s₁ work) (h : Invariant v s) (hs : NoWorkLost v s) (o : Ending) :
    NoWorkLost v (s₁.endClaim work o) ↔
      (work.revision = s.plan.revision →
        o.Accounted ∨ work ∈ transit s₁ ∨ work.planned ∈ s.plan.queue) := by
  have hplan : (s₁.endClaim work o).plan = s.plan := g.plan
  have hlive := g.released.mem_iff.mpr (List.mem_cons_self (a := work))
  constructor
  · intro hn hr
    apply (g.safe_self_iff h o).mp
    apply hn work
    · exact g.popped ▸ h.known work (Or.inl hlive)
    · rw [hplan]
      exact hr
    · exact h.housed work hlive
  · intro hw w hp hr he
    rw [hplan] at hr
    by_cases hne : w = work
    · subst hne
      exact (g.safe_self_iff h o).mpr (hw hr)
    · exact g.safe h o hne (hs w (g.popped ▸ hp) hr he)

inductive Effect (v : Variant) (s : State) : State → Prop
  | replanned (plan : PlanQueue) (later : plan.revision = s.plan.revision + 1) :
    Effect v s { s with plan := plan }
  | moved (s' : State) (moves : Moves v s s') : Effect v s s'
  | taken (pass : Pass) (work : Work) (plan : PlanQueue) (at_pass : s.pass = some pass)
      (ready : pass.stage = .ready) (front : s.plan.popFront = some (work, plan)) :
    Effect v s
      { s with
        plan := plan
        popped := work :: s.popped
        pass := some { pass with stage := .popped work } }
  | won (pass : Pass) (work : Work) (slot : SegmentSlotState) (at_pass : s.pass = some pass)
      (stage : pass.stage = .popped work) (entry : v.entry work.planned = true)
      (claim : (s.slots work.planned).tryClaim = some slot) :
    Effect v s
      { s.setSlot work.planned slot with pass := some { pass with stage := .claimed work } }
  | ended (s₁ : State) (work : Work) (o : Ending) (gives : GivesUp s s₁ work)
      (released : o.Released) (accounted : o.Accounted ∨ work ∈ transit s₁) :
    Effect v s (s₁.endClaim work o)

theorem replanned_invariant {v : Variant} {s : State} (h : Invariant v s) {plan : PlanQueue}
    (later : plan.revision = s.plan.revision + 1) : Invariant v { s with plan := plan } where
  claimed := h.claimed
  exclusive := h.exclusive
  housed := h.housed
  earlier := by
    intro work hw
    have hle := h.earlier work hw
    rw [later]
    omega
  known := h.known

/-- Nothing popped so far is of the plan that a rebuild puts in place. -/
theorem replanned_noWorkLost {v : Variant} {s : State} (h : Invariant v s) {plan : PlanQueue}
    (later : plan.revision = s.plan.revision + 1) : NoWorkLost v { s with plan := plan } := by
  intro work hw hr
  have hle := h.earlier work hw
  rw [later] at hr
  omega

section Taken

variable {v : Variant} {s : State} {pass : Pass} {work : Work} {plan : PlanQueue}

theorem taken_invariant (h : Invariant v s) (at_pass : s.pass = some pass)
    (ready : pass.stage = .ready) (front : s.plan.popFront = some (work, plan)) :
    Invariant v
      { s with
        plan := plan
        popped := work :: s.popped
        pass := some { pass with stage := .popped work } } := by
  obtain ⟨_, hwork, hplan⟩ := PlanQueue.popFront_eq_some front
  have hlive : live s = s.claims := by simp [live, at_pass, ready, Stage.live]
  refine ⟨hlive ▸ h.claimed, h.exclusive, hlive ▸ h.housed, ?_, ?_⟩
  · intro w hw
    rcases List.mem_cons.mp hw with rfl | hw
    · exact le_of_eq (hwork.trans hplan.symm)
    · exact (h.earlier w hw).trans (le_of_eq hplan.symm)
  · rintro w (hw | hw)
    · exact List.mem_cons_of_mem _ (h.known w (Or.inl (hlive ▸ hw)))
    · by_cases hne : w = work
      · exact hne ▸ List.mem_cons_self
      · apply List.mem_cons_of_mem
        apply h.known w
        right
        simp only [transit, Option.elim, Stage.loose, List.mem_append, List.mem_singleton] at hw
        simp only [transit, at_pass, Option.elim, List.mem_append]
        tauto

theorem taken_noWorkLost (h : NoWorkLost v s) (at_pass : s.pass = some pass)
    (ready : pass.stage = .ready) (front : s.plan.popFront = some (work, plan)) :
    NoWorkLost v
      { s with
        plan := plan
        popped := work :: s.popped
        pass := some { pass with stage := .popped work } } := by
  obtain ⟨hqueue, hwork, hplan⟩ := PlanQueue.popFront_eq_some front
  intro w hw hr he
  by_cases hne : w = work
  · right; right; left
    simp [transit, Stage.loose, hne]
  · have hw : w ∈ s.popped := (List.mem_cons.mp hw).resolve_left hne
    rcases h w hw (hr.trans hplan) he with hs | hl | ht | hq
    · exact Or.inl hs
    · right; left
      simpa [live, at_pass, ready, Stage.live] using hl
    · right; right; left
      simp only [transit, at_pass, Option.elim, List.mem_append, ready, Stage.loose,
        List.append_nil] at ht
      simp only [transit, Option.elim, List.mem_append]
      tauto
    · rw [hqueue] at hq
      rcases List.mem_cons.mp hq with hhead | hq
      · -- the same slot of the same plan is the work just taken
        exact absurd (Work.ext hhead (hr.trans (hplan.trans hwork.symm))) hne
      · exact Or.inr (Or.inr (Or.inr hq))

end Taken

section Won

variable {v : Variant} {s : State} {pass : Pass} {work : Work} {slot : SegmentSlotState}

theorem won_invariant (h : Invariant v s) (at_pass : s.pass = some pass)
    (stage : pass.stage = .popped work) (entry : v.entry work.planned = true)
    (claim : (s.slots work.planned).tryClaim = some slot) :
    Invariant v
      { s.setSlot work.planned slot with pass := some { pass with stage := .claimed work } } := by
  obtain ⟨hfree, _, hheld, hunsettled⟩ := SegmentSlotState.tryClaim_eq_some claim
  have hlive : live s = s.claims := by simp [live, at_pass, stage, Stage.live]
  have hwork : work ∈ transit s := by simp [transit, at_pass, stage, Stage.loose]
  refine ⟨Claimed.take (hlive ▸ h.claimed) hfree hheld, ?_, ?_, h.earlier, ?_⟩
  · intro p hd
    by_cases hp : p = work.planned
    · subst hp
      simpa [State.setSlot] using hunsettled
    · have hslot : (s.setSlot work.planned slot).slots p = s.slots p := by
        simp [State.setSlot, hp]
      exact hslot ▸ h.exclusive p (hslot ▸ hd)
  · intro w hw
    rcases List.mem_cons.mp hw with rfl | hw
    · exact entry
    · exact h.housed w (hlive ▸ hw)
  · rintro w (hw | hw)
    · rcases List.mem_cons.mp hw with rfl | hw
      · exact h.known w (Or.inr hwork)
      · exact h.known w (Or.inl (hlive ▸ hw))
    · apply h.known w
      right
      simp only [transit, State.setSlot, Option.elim, Stage.loose, List.mem_append,
        List.append_nil] at hw
      simp only [transit, at_pass, Option.elim, List.mem_append]
      tauto

theorem won_noWorkLost (h : NoWorkLost v s) (at_pass : s.pass = some pass)
    (stage : pass.stage = .popped work)
    (claim : (s.slots work.planned).tryClaim = some slot) :
    NoWorkLost v
      { s.setSlot work.planned slot with pass := some { pass with stage := .claimed work } } := by
  obtain ⟨_, hunsettled, _, _⟩ := SegmentSlotState.tryClaim_eq_some claim
  intro w hw hr he
  rcases h w hw hr he with hs | hl | ht | hq
  · have hp : w.planned ≠ work.planned := by
      intro hp
      rw [hp, hunsettled] at hs
      cases hs
    exact Or.inl (by simpa [State.setSlot, hp] using hs)
  · right; left
    simp only [live, at_pass, stage, Option.elim, Stage.live, List.nil_append] at hl
    exact List.mem_cons_of_mem _ hl
  · simp only [transit, at_pass, stage, Option.elim, Stage.loose, List.mem_append,
      List.mem_singleton] at ht
    by_cases hne : w = work
    · right; left
      simp [live, Stage.live, hne]
    · right; right; left
      simp only [transit, State.setSlot, Option.elim, List.mem_append]
      tauto
  · exact Or.inr (Or.inr (Or.inr hq))

end Won

theorem Effect.invariant {v : Variant} {s s' : State} (h : Invariant v s) (e : Effect v s s') :
    Invariant v s' := by
  cases e with
  | replanned plan later => exact replanned_invariant h later
  | moved _ moves => exact moves.invariant h
  | taken pass work plan at_pass ready front => exact taken_invariant h at_pass ready front
  | won pass work slot at_pass stage entry claim => exact won_invariant h at_pass stage entry claim
  | ended s₁ work o gives released accounted => exact gives.invariant h released

theorem Effect.noWorkLost {v : Variant} {s s' : State} (h : Invariant v s) (hs : NoWorkLost v s)
    (e : Effect v s s') : NoWorkLost v s' := by
  cases e with
  | replanned plan later => exact replanned_noWorkLost h later
  | moved _ moves => exact moves.noWorkLost hs
  | taken pass work plan at_pass ready front => exact taken_noWorkLost hs at_pass ready front
  | won pass work slot at_pass stage entry claim => exact won_noWorkLost hs at_pass stage claim
  | ended s₁ work o gives released accounted =>
    apply (gives.noWorkLost_iff h hs o).mpr
    intro _
    rcases accounted with ha | ht
    · exact Or.inl ha
    · exact Or.inr (Or.inl ht)

end HlsWorkHolders

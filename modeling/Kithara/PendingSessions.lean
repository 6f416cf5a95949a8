import Kithara.PendingResources

/-! What every order of operations on a resource keeps: one session listed at most, one writer of
it, one removal, and nothing that an ended session's leases and writers can reach. -/
namespace PendingResources

open TransitionSystem

variable {W : Type*}

def State.stageOf (s : State W) (i : ℕ) : Option Stage :=
  s.stage.bind fun p => if p.1 = i then some p.2 else none

/-- What a session looks like, listed or not, midway through its end or not. -/
def PendingResource.Fits (r : PendingResource W) (listed : Prop) : Option Stage → Prop
  | some .storing | some .removing => r.phase = .finishing ∧ listed ∧ r.removes = 0
  | some .unlisting => r.phase = .committed ∧ listed ∧ r.removes = 0
  | none => match r.phase with
    | .active => listed ∧ r.entries ≠ [] ∧ r.reader = true ∧ r.writer.isSome ∧ r.removes = 0
    | .finishing => ¬ listed ∧ r.removes = 1
    | .committed => ¬ listed ∧ r.removes = 0
    | .cleanupFailed => listed ∧ r.removes = 1

structure Consistent (s : State W) : Prop where
  listed : ∀ i, s.slot = some i → i < s.opened
  staged : ∀ i stage, s.stage = some (i, stage) → i < s.opened
  fits : ∀ i < s.opened, (s.session i).Fits (s.slot = some i) (s.stageOf i)
  attached : ∀ i < s.opened, ∀ c, c ∈ (s.session i).entries ↔ (i, c) ∈ s.leases
  leased : ∀ p ∈ s.leases, p.1 < s.opened
  issued : ∀ p ∈ s.issued, p.1 < s.opened ∧ p.2.id < s.claims
  claimed : ∀ i < s.opened, ∀ claim ∈ (s.session i).writerClaim, (i, claim) ∈ s.issued
  writing : ∀ p ∈ s.writing, p.1 < s.opened
  retired : ∀ i ∈ s.retired, i < s.opened
  unopened : ∀ i, s.opened ≤ i → s.session i = .blank

/-- The step from `s` to `t` concerns one session. -/
structure Touches (i : ℕ) (s t : State W) : Prop where
  session : ∀ j ≠ i, t.session j = s.session j
  slot : ∀ j ≠ i, t.slot = some j ↔ s.slot = some j
  stage : ∀ j ≠ i, t.stageOf j = s.stageOf j
  leases : ∀ j ≠ i, ∀ c, (j, c) ∈ t.leases ↔ (j, c) ∈ s.leases
  opened : t.opened = s.opened

/-- Sessions end and do not come back, and a claim that is new is the newest. -/
structure Advance (s t : State W) : Prop where
  opened : s.opened ≤ t.opened
  claims : s.claims ≤ t.claims
  phase : ∀ i < s.opened, (t.session i).phase = (s.session i).phase ∨
    (s.session i).phase = .active ∨
    (s.session i).phase = .finishing ∧ (t.session i).phase ≠ .active
  claim : ∀ i < s.opened, ∀ claim ∈ (t.session i).writerClaim,
    claim ∈ (s.session i).writerClaim ∨ s.claims ≤ claim.id

variable {s t u : State W} {i : ℕ}

theorem Advance.refl (s : State W) : Advance s s :=
  ⟨Nat.le_refl _, Nat.le_refl _, fun _ _ => .inl rfl, fun _ _ _ => .inl⟩

theorem Advance.trans (h : Advance s t) (k : Advance t u) : Advance s u := by
  refine ⟨h.opened.trans k.opened, h.claims.trans k.claims, fun i hi => ?_,
    fun i hi claim hclaim => ?_⟩
  · rcases k.phase i (hi.trans_le h.opened) with hk | hk | ⟨hk, hne⟩
    · rw [hk]
      exact h.phase i hi
    · rcases h.phase i hi with hh | hh | ⟨_, hne⟩
      · exact .inr (.inl (hh ▸ hk))
      · exact .inr (.inl hh)
      · exact absurd hk hne
    · rcases h.phase i hi with hh | hh | ⟨hh, _⟩
      · exact .inr (.inr ⟨hh ▸ hk, hne⟩)
      · exact .inr (.inl hh)
      · exact .inr (.inr ⟨hh, hne⟩)
  · rcases k.claim i (hi.trans_le h.opened) claim hclaim with hk | hk
    · exact h.claim i hi claim hk
    · exact .inr (h.claims.trans hk)

theorem fits_active {r : PendingResource W} {listed : Prop} {stage : Option Stage}
    (hactive : r.phase = .active) : r.Fits listed stage ↔ stage = none ∧ listed ∧
      r.entries ≠ [] ∧ r.reader = true ∧ r.writer.isSome ∧ r.removes = 0 := by
  cases stage with
  | none => simp only [PendingResource.Fits, hactive, true_and]
  | some stage => cases stage <;> simp [PendingResource.Fits, hactive]

theorem fits_listed {r : PendingResource W} {listed : Prop} (h : r.Fits listed none)
    (hlisted : listed) (hnot : r.phase ≠ .cleanupFailed) : r.phase = .active := by
  simp only [PendingResource.Fits] at h
  cases hphase : r.phase with
  | active => rfl
  | finishing =>
    rw [hphase] at h
    exact absurd hlisted h.1
  | committed =>
    rw [hphase] at h
    exact absurd hlisted h.1
  | cleanupFailed => exact absurd hphase hnot

theorem fits_left {r : PendingResource W} {listed : Prop} {entries : List ℕ}
    {claim : Option WriterClaim} (h : r.Fits listed none)
    (hentries : r.phase = .active → entries ≠ []) :
    { r with entries := entries, writerClaim := claim }.Fits listed none := by
  simp only [PendingResource.Fits] at h ⊢
  cases hphase : r.phase <;> rw [hphase] at h
  case active => exact ⟨h.1, hentries hphase, h.2.2⟩
  all_goals exact h

theorem Consistent.touch (h : Consistent s) (hi : i < s.opened) (htouch : Touches i s t)
    (hfits : (t.session i).Fits (t.slot = some i) (t.stageOf i))
    (hattached : ∀ c, c ∈ (t.session i).entries ↔ (i, c) ∈ t.leases)
    (hissued : ∀ p ∈ t.issued, p.1 < s.opened ∧ p.2.id < t.claims)
    (hkept : ∀ p ∈ s.issued, p ∈ t.issued)
    (hclaimed : ∀ claim ∈ (t.session i).writerClaim, (i, claim) ∈ t.issued)
    (hwriting : t.writing = s.writing) (hretired : ∀ j ∈ t.retired, j = i ∨ j ∈ s.retired) :
    Consistent t := by
  refine ⟨fun j hj => ?_, fun j stage hj => ?_, fun j hj => ?_, fun j hj => ?_, fun p hp => ?_,
    fun p hp => ?_, fun j hj => ?_, fun p hp => ?_, fun j hj => ?_,
    fun j hj => ?_⟩ <;> rw [htouch.opened] at *
  · by_cases hji : j = i
    · exact hji ▸ hi
    · exact h.listed j ((htouch.slot j hji).mp hj)
  · by_cases hji : j = i
    · exact hji ▸ hi
    · have hstage := htouch.stage j hji
      simp only [State.stageOf, hj, Option.bind_some, if_true] at hstage
      obtain ⟨⟨k, stage'⟩, hs, hk⟩ := Option.bind_eq_some_iff.mp hstage.symm
      by_cases hkj : k = j
      · exact h.staged j stage' (hkj ▸ hs)
      · rw [if_neg hkj] at hk
        cases hk
  · by_cases hji : j = i
    · exact hji ▸ hfits
    · rw [htouch.session j hji, htouch.stage j hji, propext (htouch.slot j hji)]
      exact h.fits j hj
  · by_cases hji : j = i
    · exact hji ▸ hattached
    · intro c
      rw [htouch.session j hji, htouch.leases j hji]
      exact h.attached j hj c
  · by_cases hpi : p.1 = i
    · exact hpi ▸ hi
    · exact h.leased p ((htouch.leases p.1 hpi p.2).mp hp)
  · exact hissued p hp
  · by_cases hji : j = i
    · exact hji ▸ hclaimed
    · rw [htouch.session j hji]
      exact fun claim hclaim => hkept _ (h.claimed j hj claim hclaim)
  · rw [hwriting] at hp
    exact h.writing p hp
  · rcases hretired j hj with rfl | hj
    · exact hi
    · exact h.retired j hj
  · rw [htouch.session j (hi.trans_le hj).ne']
    exact h.unopened j hj

theorem Touches.advance (htouch : Touches i s t) (hclaims : s.claims ≤ t.claims)
    (hphase : (t.session i).phase = (s.session i).phase ∨ (s.session i).phase = .active ∨
      (s.session i).phase = .finishing ∧ (t.session i).phase ≠ .active)
    (hclaim : ∀ claim ∈ (t.session i).writerClaim,
      claim ∈ (s.session i).writerClaim ∨ s.claims ≤ claim.id) : Advance s t := by
  refine ⟨htouch.opened.ge, hclaims, fun j _ => ?_, fun j _ => ?_⟩
  · by_cases hji : j = i
    · exact hji ▸ hphase
    · exact .inl (by rw [htouch.session j hji])
  · by_cases hji : j = i
    · exact hji ▸ hclaim
    · rw [htouch.session j hji]
      exact fun _ => .inl

/-- A step about one session, from a consistent state to the next. -/
structure Keeps (i : ℕ) (s t : State W) : Prop where
  touch : Touches i s t
  consistent : Consistent t
  advance : Advance s t

theorem Keeps.refl (h : Consistent s) : Keeps i s s :=
  ⟨⟨fun _ _ => rfl, fun _ _ => Iff.rfl, fun _ _ => rfl, fun _ _ _ => Iff.rfl, rfl⟩, h, .refl s⟩

theorem Touches.trans (h : Touches i s t) (k : Touches i t u) : Touches i s u :=
  ⟨fun j hj => (k.session j hj).trans (h.session j hj),
    fun j hj => (k.slot j hj).trans (h.slot j hj),
    fun j hj => (k.stage j hj).trans (h.stage j hj),
    fun j hj c => (k.leases j hj c).trans (h.leases j hj c), k.opened.trans h.opened⟩

theorem Keeps.trans (h : Keeps i s t) (k : Keeps i t u) : Keeps i s u :=
  ⟨h.touch.trans k.touch, k.consistent, h.advance.trans k.advance⟩

/-- A session changes, and its place in the index and in the operation under way does not. -/
theorem touches_put {r : PendingResource W} (hsession : t.session = Function.update s.session i r)
    (hslot : t.slot = s.slot) (hstage : t.stage = s.stage) (hleases : t.leases = s.leases)
    (hopened : t.opened = s.opened) : Touches i s t := by
  refine ⟨fun j hj => ?_, fun j _ => ?_, fun j _ => ?_, fun j _ c => ?_, hopened⟩
  · rw [hsession, Function.update_of_ne hj]
  · rw [hslot]
  · rw [State.stageOf, State.stageOf, hstage]
  · rw [hleases]

theorem elect_none {consumer : ℕ}
    (h : (s.session i).electWriter s.cancelled consumer s.claims = none) :
    s.elect i consumer = (s, none) := by
  simp only [State.elect, h]

theorem elect_some {consumer : ℕ} {claim : WriterClaim}
    (h : (s.session i).electWriter s.cancelled consumer s.claims = some claim) :
    s.elect i consumer = ({ s.put i { s.session i with writerClaim := some claim } with
      issued := (i, claim) :: s.issued, claims := s.claims + 1 }, some claim) := by
  simp only [State.elect, h]

theorem electWriter_id {r : PendingResource W} {cancelled : Bool} {consumer id : ℕ}
    {claim : WriterClaim} (h : r.electWriter cancelled consumer id = some claim) :
    claim.id = id := by
  simp only [PendingResource.electWriter] at h
  split at h
  · cases h
  · split at h
    · cases h
    · rw [← Option.some_inj.mp h]

theorem elect_keeps (h : Consistent s) (hi : i < s.opened) (consumer : ℕ) :
    Keeps i s (s.elect i consumer).1 := by
  cases helect : (s.session i).electWriter s.cancelled consumer s.claims with
  | none =>
    rw [elect_none helect]
    exact .refl h
  | some claim =>
    rw [elect_some helect]
    have hid := electWriter_id helect
    have htouch : Touches i s { s.put i { s.session i with writerClaim := some claim } with
        issued := (i, claim) :: s.issued, claims := s.claims + 1 } :=
      touches_put rfl rfl rfl rfl rfl
    refine ⟨htouch, h.touch hi htouch ?_ ?_ ?_ ?_ ?_ rfl fun _ => .inr, htouch.advance (Nat.le_succ _) ?_ ?_⟩
    all_goals simp only [State.put, Function.update_self]
    · exact h.fits i hi
    · exact h.attached i hi
    · intro p hp
      rcases List.mem_cons.mp hp with rfl | hp
      · exact ⟨hi, hid.trans_lt (Nat.lt_succ_self _)⟩
      · exact ⟨(h.issued p hp).1, (h.issued p hp).2.trans (Nat.lt_succ_self _)⟩
    · exact fun p => List.mem_cons_of_mem _
    · rintro _ ⟨⟩
      exact List.mem_cons_self
    · exact .inl trivial
    · rintro _ ⟨⟩
      exact .inr hid.ge

theorem keeps_of (h : Consistent s) (hi : i < s.opened) (htouch : Touches i s t)
    (hissued : t.issued = s.issued) (hclaims : t.claims = s.claims)
    (hwriting : t.writing = s.writing) (hretired : ∀ j ∈ t.retired, j = i ∨ j ∈ s.retired)
    (hfits : (t.session i).Fits (t.slot = some i) (t.stageOf i))
    (hattached : ∀ c, c ∈ (t.session i).entries ↔ (i, c) ∈ t.leases)
    (hclaim : ∀ claim ∈ (t.session i).writerClaim, claim ∈ (s.session i).writerClaim)
    (hphase : (t.session i).phase = (s.session i).phase ∨ (s.session i).phase = .active ∨
      (s.session i).phase = .finishing ∧ (t.session i).phase ≠ .active) : Keeps i s t := by
  refine ⟨htouch, h.touch hi htouch hfits hattached ?_ ?_ ?_ hwriting hretired,
    htouch.advance hclaims.ge hphase fun claim hmem => .inl (hclaim claim hmem)⟩
  · rw [hissued, hclaims]
    exact h.issued
  · rw [hissued]
    exact fun _ => id
  · rw [hissued]
    exact fun claim hmem => h.claimed i hi claim (hclaim claim hmem)

theorem join_keeps (h : Consistent s) (hi : i < s.opened)
    (hactive : (s.session i).phase = .active) : Keeps i s (s.join i) := by
  have htouch : Touches i s (s.join i) := by
    refine ⟨fun j hj => Function.update_of_ne hj _ _, fun _ _ => Iff.rfl, fun _ _ => rfl,
      fun j hj c => ?_, rfl⟩
    simp only [State.join, List.mem_cons, Prod.mk.injEq, hj, false_and, false_or, State.put]
  refine keeps_of h hi htouch rfl rfl rfl (fun _ => .inr) ?_ ?_ ?_ ?_
  all_goals simp only [State.join, State.put, Function.update_self]
  · have hfits := (fits_active hactive).mp (h.fits i hi)
    refine (fits_active (by exact hactive)).mpr ⟨hfits.1, hfits.2.1, ?_, hfits.2.2.2⟩
    exact List.append_ne_nil_of_right_ne_nil _ (List.cons_ne_nil _ _)
  · intro c
    rw [List.mem_append, h.attached i hi, List.mem_singleton, or_comm, List.mem_cons,
      Prod.mk.injEq, and_iff_right rfl]
  · exact fun _ => id
  · exact .inl trivial

theorem put_keeps {r : PendingResource W} (h : Consistent s) (hi : i < s.opened)
    (hfits : r.Fits (s.slot = some i) (s.stageOf i))
    (hentries : r.entries = (s.session i).entries)
    (hclaim : ∀ claim ∈ r.writerClaim, claim ∈ (s.session i).writerClaim)
    (hphase : r.phase = (s.session i).phase) : Keeps i s (s.put i r) := by
  refine keeps_of h hi (touches_put rfl rfl rfl rfl rfl) rfl rfl rfl (fun _ => .inr) ?_ ?_ ?_ ?_
  all_goals simp only [State.put, Function.update_self]
  · exact hfits
  · rw [hentries]
    exact h.attached i hi
  · exact hclaim
  · exact .inl hphase

theorem stageOf_none (h : s.stage = none) : s.stageOf i = none := by
  rw [State.stageOf, h, Option.bind_none]

theorem stageOf_some {stage : Stage} (h : s.stage = some (i, stage)) :
    s.stageOf i = some stage := by
  rw [State.stageOf, h, Option.bind_some, if_pos rfl]

theorem stageOf_ne (h : ∀ p ∈ s.stage, p.1 = i) {j : ℕ} (hj : j ≠ i) : s.stageOf j = none := by
  rw [State.stageOf, Option.bind_eq_none_iff]
  intro p hp
  exact if_neg fun heq => hj (heq.symm.trans (h p hp))

/-- An operation on the listed session begins its end, or goes on with it. -/
theorem touches_stage {r : PendingResource W} (hsession : t.session = Function.update s.session i r)
    (hleases : t.leases = s.leases) (hopened : t.opened = s.opened) (hslot : s.slot = some i)
    (hslot' : ∀ j ∈ t.slot, j = i) (hstage : ∀ p ∈ s.stage, p.1 = i)
    (hstage' : ∀ p ∈ t.stage, p.1 = i) : Touches i s t := by
  refine ⟨fun j hj => ?_, fun j hj => ?_, fun j hj => ?_, fun j _ c => ?_, hopened⟩
  · rw [hsession, Function.update_of_ne hj]
  · rw [hslot]
    constructor
    · exact fun heq => absurd (hslot' j heq) hj
    · exact fun heq => absurd (Option.some_inj.mp heq).symm hj
  · rw [stageOf_ne hstage hj, stageOf_ne hstage' hj]
  · rw [hleases]

theorem tryTakeWriter_keeps (h : Consistent s) (hi : i < s.opened) (consumer : ℕ) :
    Keeps i s (tryTakeWriter s i consumer).1 := by
  rw [tryTakeWriter]
  split
  · exact .refl h
  · exact elect_keeps h hi consumer

theorem asWriter_current {claim : WriterClaim} (act : State W × Answer)
    (h : s.slot = some i ∧ s.Current i claim) : asWriter s i claim act = act := if_pos h

theorem asWriter_stale {claim : WriterClaim} (act : State W × Answer)
    (h : ¬ (s.slot = some i ∧ s.Current i claim)) : asWriter s i claim act = (s, .stale) :=
  if_neg h

theorem current_iff {claim : WriterClaim} : s.Current i claim ↔
    (s.session i).phase = .active ∧ (s.session i).writerClaim = some claim := by
  simp only [State.Current, PendingResource.isCurrentWriter, Bool.and_eq_true, decide_eq_true_eq]

theorem current_fits {claim : WriterClaim} (h : Consistent s) (hi : i < s.opened)
    (hcurrent : s.Current i claim) : s.stageOf i = none ∧ s.slot = some i ∧
      (s.session i).entries ≠ [] ∧ (s.session i).reader = true ∧
      (s.session i).writer.isSome ∧ (s.session i).removes = 0 :=
  (fits_active (current_iff.mp hcurrent).1).mp (h.fits i hi)

theorem relinquish_keeps (h : Consistent s) (hi : i < s.opened) (claim : WriterClaim) :
    Keeps i s (relinquish s i claim).1 := by
  rw [relinquish]
  by_cases hcurrent : s.slot = some i ∧ s.Current i claim
  · rw [asWriter_current _ hcurrent]
    exact put_keeps h hi (h.fits i hi) rfl (fun _ hnone => by cases hnone) rfl
  · rw [asWriter_stale _ hcurrent]
    exact .refl h

theorem begin_keeps {claim : WriterClaim} {r : PendingResource W} {stage : Stage}
    (h : Consistent s) (hi : i < s.opened) (hstage : s.stage = none)
    (hcurrent : s.Current i claim) (hphase : r.phase = .finishing)
    (hentries : r.entries = (s.session i).entries) (hclaim : r.writerClaim = none)
    (hremoves : r.removes = (s.session i).removes) (hends : stage ≠ .unlisting) :
    Keeps i s { s.put i r with stage := some (i, stage) } := by
  obtain ⟨_, hslot, _, _, _, hzero⟩ := current_fits h hi hcurrent
  have htouch : Touches i s { s.put i r with stage := some (i, stage) } := by
    refine touches_stage rfl rfl rfl hslot (fun j hj => ?_) (fun p hp => ?_) (fun p hp => ?_)
    · exact Option.some_inj.mp (hj.symm.trans hslot)
    · rw [hstage] at hp
      cases hp
    · cases hp
      rfl
  refine keeps_of h hi htouch rfl rfl rfl (fun _ => .inr) ?_ ?_ ?_ ?_
  all_goals simp only [State.put, Function.update_self]
  · rw [stageOf_some rfl]
    cases stage with
    | unlisting => exact absurd rfl hends
    | storing => exact ⟨hphase, hslot, hremoves.trans hzero⟩
    | removing => exact ⟨hphase, hslot, hremoves.trans hzero⟩
  · rw [hentries]
    exact h.attached i hi
  · rw [hclaim]
    exact fun _ hnone => by cases hnone
  · exact .inr (.inl (current_iff.mp hcurrent).1)

theorem commit_keeps (h : Consistent s) (hi : i < s.opened) (hstage : s.stage = none)
    (claim : WriterClaim) : Keeps i s (commit s i claim).1 ∧ (commit s i claim).2 ≠ .bug := by
  rw [commit]
  by_cases hcurrent : s.slot = some i ∧ s.Current i claim
  · obtain ⟨_, hwriter⟩ := Option.isSome_iff_exists.mp (current_fits h hi hcurrent.2).2.2.2.2.1
    rw [asWriter_current _ hcurrent]
    simp only [hwriter]
    exact ⟨begin_keeps h hi hstage hcurrent.2 rfl rfl rfl rfl nofun, nofun⟩
  · rw [asWriter_stale _ hcurrent]
    exact ⟨.refl h, nofun⟩

theorem fail_keeps (h : Consistent s) (hi : i < s.opened) (hstage : s.stage = none)
    (claim : WriterClaim) : Keeps i s (fail s i claim).1 ∧ (fail s i claim).2 ≠ .bug := by
  rw [fail]
  by_cases hcurrent : s.slot = some i ∧ s.Current i claim
  · obtain ⟨_, hwriter⟩ := Option.isSome_iff_exists.mp (current_fits h hi hcurrent.2).2.2.2.2.1
    rw [asWriter_current _ hcurrent]
    simp only [hwriter]
    exact ⟨begin_keeps h hi hstage hcurrent.2 rfl rfl rfl rfl nofun, nofun⟩
  · rw [asWriter_stale _ hcurrent]
    exact ⟨.refl h, nofun⟩

theorem dropLease_keeps (h : Consistent s) (hi : i < s.opened) (hstage : s.stage = none)
    (consumer : ℕ) : Keeps i s (dropLease s i consumer).1 := by
  have hfits := h.fits i hi
  rw [stageOf_none hstage] at hfits
  have hleases : ∀ j ≠ i, ∀ c, (j, c) ∈ s.leases.filter (· ≠ (i, consumer)) ↔ (j, c) ∈ s.leases := by
    intro j hj c
    simp [hj]
  have hattached : ∀ c, c ∈ (s.session i).entries.filter (· ≠ consumer) ↔
      (i, c) ∈ s.leases.filter (· ≠ (i, consumer)) := by
    intro c
    simp [h.attached i hi]
  have hclaim : ∀ claim ∈ (s.session i).writerClaim.filter (·.consumer ≠ consumer),
      claim ∈ (s.session i).writerClaim := fun claim hmem =>
    (Option.mem_filter_iff.mp hmem).1
  simp only [dropLease]
  split
  · rename_i hstays
    refine keeps_of h hi ⟨fun j hj => Function.update_of_ne hj _ _, fun _ _ => Iff.rfl,
      fun _ _ => rfl, hleases, rfl⟩ rfl rfl rfl (fun _ => .inr) ?_ ?_ ?_ ?_
    all_goals simp only [State.put, Function.update_self]
    · rw [stageOf_none (by exact hstage)]
      apply fits_left hfits
      intro hactive
      obtain ⟨hslot, _⟩ := (fits_active hactive).mp hfits |>.2
      rcases hstays with hfailed | hnot | hentries
      · rw [hactive] at hfailed
        cases hfailed
      · exact absurd hslot hnot
      · exact hentries
    · exact hattached
    · exact hclaim
    · exact .inl trivial
  · rename_i hends
    simp only [not_or, not_not] at hends
    obtain ⟨hnot, hslot, hentries⟩ := hends
    have hactive := fits_listed hfits hslot hnot
    obtain ⟨_, _, _, _, _, hzero⟩ := (fits_active hactive).mp hfits
    refine keeps_of h hi ⟨fun j hj => ?_, fun _ _ => Iff.rfl, fun j hj => ?_, hleases, rfl⟩
      rfl rfl rfl (fun _ => .inr) ?_ ?_ ?_ ?_
    · simp only [State.put, Function.update_of_ne hj]
    · rw [stageOf_none hstage]
      exact stageOf_ne (fun p hp => by cases hp; rfl) hj
    all_goals simp only [State.put, Function.update_self]
    · rw [stageOf_some rfl]
      exact ⟨rfl, hslot, hzero⟩
    · exact hattached
    · exact hclaim
    · exact .inr (.inl hactive)

theorem writing_keeps (writing : List (ℕ × WriterClaim)) (h : Consistent s)
    (hwriting : ∀ p ∈ writing, p.1 < s.opened) :
    Keeps i s { s with writing := writing } :=
  ⟨⟨fun _ _ => rfl, fun _ _ => Iff.rfl, fun _ _ => rfl, fun _ _ _ => Iff.rfl, rfl⟩,
    ⟨h.listed, h.staged, h.fits, h.attached, h.leased, h.issued, h.claimed,
      hwriting, h.retired, h.unopened⟩,
    ⟨Nat.le_refl _, Nat.le_refl _, fun _ _ => .inl rfl, fun _ _ _ => .inl⟩⟩

theorem writeAt_keeps (h : Consistent s) (hi : i < s.opened) (claim : WriterClaim) (data : W)
    (ok : Bool) : Keeps i s (writeAt s i claim data ok).1 := by
  simp only [writeAt]
  have hstart := writing_keeps (i := i) (s.writing.erase (i, claim)) h fun p hp =>
    h.writing p (List.mem_of_mem_erase hp)
  split
  · rename_i hcurrent
    have hactive := (current_iff.mp (by exact hcurrent)).1
    split
    · exact hstart
    · split
      · refine hstart.trans (put_keeps hstart.consistent hi ?_ rfl (fun _ => id) rfl)
        have hfits := (fits_active hactive).mp (h.fits i hi)
        exact (fits_active (by exact hactive)).mpr
          ⟨hfits.1, hfits.2.1, hfits.2.2.1, hfits.2.2.2.1, rfl, hfits.2.2.2.2.2⟩
      · exact hstart
  · exact hstart

theorem stageOf_eq (h : ∀ p ∈ s.stage, p.1 = i) : s.stageOf i = s.stage.map Prod.snd := by
  cases hstage : s.stage with
  | none => rw [stageOf_none hstage, Option.map_none]
  | some p =>
    rw [stageOf_some (hstage.trans (by rw [← h p hstage])), Option.map_some]

theorem goOn_keeps {r : PendingResource W} {stage : Stage} {slot : Option ℕ}
    {after : Option (ℕ × Stage)} (retired : List ℕ) (h : Consistent s)
    (hstage : s.stage = some (i, stage)) (hslot : ∀ j ∈ slot, j = i) (hafter : ∀ p ∈ after, p.1 = i)
    (hentries : r.entries = (s.session i).entries)
    (hclaim : r.writerClaim = (s.session i).writerClaim)
    (hfits : r.Fits (slot = some i) (after.map Prod.snd))
    (hphase : r.phase = (s.session i).phase ∨
      (s.session i).phase = .finishing ∧ r.phase ≠ .active)
    (hretired : ∀ j ∈ retired, j = i ∨ j ∈ s.retired) :
    Keeps i s { s.put i r with slot := slot, stage := after, retired := retired } := by
  have hi : i < s.opened := h.staged i stage hstage
  have hlisted : s.slot = some i := by
    have hplace := h.fits i hi
    rw [stageOf_some hstage] at hplace
    cases stage <;> exact hplace.2.1
  have htouch : Touches i s { s.put i r with slot := slot, stage := after, retired := retired } := by
    refine touches_stage rfl rfl rfl hlisted hslot (fun p hp => ?_) hafter
    rw [hstage] at hp
    cases hp
    rfl
  refine keeps_of h hi htouch rfl rfl rfl hretired ?_ ?_ ?_ ?_
  all_goals simp only [State.put, Function.update_self]
  · rw [stageOf_eq (by exact hafter)]
    exact hfits
  · rw [hentries]
    exact h.attached i hi
  · rw [hclaim]
    exact fun _ => id
  · exact hphase.imp_right .inr

theorem finish_keeps {stage : Stage} (h : Consistent s) (hstage : s.stage = some (i, stage))
    (ok : Bool) : Keeps i s (finish s i stage ok).1 := by
  have hfits := h.fits i (h.staged i stage hstage)
  rw [stageOf_some hstage] at hfits
  have hself : ∀ stage', ∀ p ∈ some (i, (stage' : Stage)), p.1 = i := by
    rintro _ _ ⟨⟩
    rfl
  have hslot : ∀ j ∈ s.slot, j = i := by
    intro j hj
    have hlisted : s.slot = some i := by cases stage <;> exact hfits.2.1
    exact Option.some_inj.mp (hj.symm.trans hlisted)
  cases stage with
  | storing =>
    obtain ⟨hphase, hlisted, hzero⟩ := hfits
    cases ok with
    | true =>
      exact goOn_keeps s.retired h hstage hslot (hself _) rfl rfl
        ⟨rfl, hlisted, hzero⟩ (.inr ⟨hphase, nofun⟩) fun _ => .inr
    | false =>
      exact goOn_keeps s.retired h hstage hslot (hself _) rfl rfl
        ⟨hphase, hlisted, hzero⟩ (.inl rfl) fun _ => .inr
  | unlisting =>
    obtain ⟨hphase, _, hzero⟩ := hfits
    have hsame : finish s i .unlisting ok = ({ s.put i (s.session i) with
        slot := none, stage := none, retired := i :: s.retired }, .current) := by
      simp only [finish, State.retire, State.put, Function.update_eq_self]
    rw [hsame]
    refine goOn_keeps _ h hstage nofun nofun rfl rfl ?_ (.inl rfl) fun _ => List.mem_cons.mp
    simp only [PendingResource.Fits, Option.map_none, hphase, hzero]
    exact ⟨nofun, trivial⟩
  | removing =>
    obtain ⟨hphase, hlisted, hzero⟩ := hfits
    cases ok with
    | true =>
      refine goOn_keeps _ h hstage nofun nofun rfl rfl ?_ (.inl rfl) fun _ => List.mem_cons.mp
      simp only [PendingResource.Fits, Option.map_none, hphase, hzero]
      exact ⟨nofun, trivial⟩
    | false =>
      refine goOn_keeps _ h hstage hslot nofun rfl rfl ?_ (.inr ⟨hphase, nofun⟩)
        fun _ => List.mem_cons.mp
      simp only [PendingResource.Fits, Option.map_none, hzero]
      exact ⟨hlisted, trivial⟩

theorem finish_answer (stage : Stage) (ok : Bool) : (finish s i stage ok).2 ≠ .bug := by
  cases stage <;> cases ok <;> exact nofun

theorem cancelWriter_keeps {retired : List ℕ} (h : Consistent s) (hi : i < s.opened)
    (hretired : ∀ j ∈ retired, j ∈ s.retired) :
    Keeps i s { cancelWriter s i with retired := retired } := by
  refine keeps_of h hi (touches_put rfl rfl rfl rfl rfl) rfl rfl rfl
    (fun j hj => .inr (hretired j hj)) ?_ ?_ ?_ ?_
  all_goals simp only [cancelWriter, State.put, Function.update_self]
  · exact h.fits i hi
  · exact h.attached i hi
  · exact fun _ => id
  · exact .inl trivial

theorem openSession_keeps (h : Consistent s) (hslot : s.slot = none) (hstage : s.stage = none) :
    Consistent s.openSession ∧ Advance s s.openSession := by
  have hne : ∀ i < s.opened, i ≠ s.opened := fun i hi => hi.ne
  have hold : ∀ i < s.openSession.opened, i ≠ s.opened → i < s.opened := fun i hi hne =>
    lt_of_le_of_ne (Nat.le_of_lt_succ hi) hne
  have hsession : s.openSession.session s.opened = .new s.consumers := Function.update_self ..
  have hother : ∀ i ≠ s.opened, s.openSession.session i = s.session i := fun i hi =>
    Function.update_of_ne hi _ _
  have hnone : ∀ c, (s.opened, c) ∉ s.leases := fun c hc => Nat.lt_irrefl _ (h.leased _ hc)
  refine ⟨⟨fun i hi => ?_, fun i stage hi => ?_, fun i hi => ?_, fun i hi c => ?_, fun p hp => ?_,
    fun p hp => ?_, fun i hi claim hclaim => ?_, fun p hp => ?_,
    fun i hi => ?_, fun i hi => ?_⟩, ⟨Nat.le_succ _, Nat.le_refl _, fun i hi => ?_,
    fun i hi => ?_⟩⟩
  · rw [← Option.some_inj.mp hi]
    exact Nat.lt_succ_self _
  · rw [show s.openSession.stage = none from hstage] at hi
    cases hi
  · rw [stageOf_none (by exact hstage)]
    by_cases heq : i = s.opened
    · rw [heq, hsession]
      exact ⟨rfl, List.cons_ne_nil _ _, rfl, rfl, rfl⟩
    · have hfits := h.fits i (hold i hi heq)
      have hsame : s.openSession.slot = some i ↔ (none : Option ℕ) = some i :=
        ⟨fun hyes => absurd (Option.some_inj.mp hyes).symm heq, nofun⟩
      rw [stageOf_none hstage, hslot] at hfits
      rw [hother i heq, propext hsame]
      exact hfits
  · change _ ↔ (i, c) ∈ (s.opened, s.consumers) :: s.leases
    rw [List.mem_cons, Prod.mk.injEq]
    by_cases heq : i = s.opened
    · rw [heq, hsession, and_iff_right rfl, or_iff_left (hnone c)]
      exact List.mem_singleton
    · rw [hother i heq, or_iff_right fun hyes => heq hyes.1]
      exact h.attached i (hold i hi heq) c
  · rcases List.mem_cons.mp hp with rfl | hp
    · exact Nat.lt_succ_self _
    · exact (h.leased p hp).trans (Nat.lt_succ_self _)
  · exact ⟨(h.issued p hp).1.trans (Nat.lt_succ_self _), (h.issued p hp).2⟩
  · by_cases heq : i = s.opened
    · rw [heq, hsession] at hclaim
      cases hclaim
    · rw [hother i heq] at hclaim
      exact h.claimed i (hold i hi heq) claim hclaim
  · exact (h.writing p hp).trans (Nat.lt_succ_self _)
  · exact (h.retired i hi).trans (Nat.lt_succ_self _)
  · rw [hother i (Nat.lt_of_succ_le hi).ne']
    exact h.unopened i (Nat.le_of_succ_le hi)
  · rw [hother i (hne i hi)]
    exact .inl rfl
  · rw [hother i (hne i hi)]
    exact fun _ => .inl

theorem attach_listed (h : Consistent s) (hstage : s.stage = none) (hslot : s.slot = some i)
    (acquired : Acquired) : Keeps i s (attach s acquired).1 ∧ (attach s acquired).2 ≠ .bug := by
  have hi := h.listed i hslot
  have hfits := h.fits i hi
  rw [stageOf_none hstage] at hfits
  by_cases hfailed : (s.session i).phase = .cleanupFailed
  · simp only [attach, hslot, hfailed]
    exact ⟨.refl h, nofun⟩
  · have hactive := fits_listed hfits hslot hfailed
    have hreader := ((fits_active hactive).mp hfits).2.2.2.1
    simp only [attach, hslot, hactive, hreader, if_true]
    have hjoin := join_keeps h hi hactive
    exact ⟨hjoin.trans (elect_keeps hjoin.consistent hi _), nofun⟩

theorem attach_fresh (h : Consistent s) (hstage : s.stage = none) (hslot : s.slot = none)
    (acquired : Acquired) : (Consistent (attach s acquired).1 ∧ Advance s (attach s acquired).1) ∧
      (attach s acquired).2 ≠ .bug := by
  cases acquired with
  | pending =>
    simp only [attach, hslot]
    obtain ⟨hconsistent, hadvance⟩ := openSession_keeps h hslot hstage
    have helect := elect_keeps hconsistent (Nat.lt_succ_self s.opened) s.consumers
    exact ⟨⟨helect.consistent, hadvance.trans helect.advance⟩, nofun⟩
  | ready | joined | failed =>
    simp only [attach, hslot]
    exact ⟨⟨h, .refl s⟩, nofun⟩

/-- The session that an action is about. -/
def about (s : State W) : Action W → Option ℕ
  | .attach _ => s.slot
  | .tryTakeWriter i _ | .dropLease i _ | .dropWriter i _ | .relinquish i _ | .commit i _
  | .fail i _ | .enterWrite i _ | .writeAt i _ _ _ | .cancelRetired i | .cancelSession i => some i
  | .stored _ | .unlist | .removed _ => s.stage.map Prod.fst
  | .cancelStore => none

theorem step_about {a : Action W} (h : Consistent s) (he : Enabled s a) (ha : about s a = some i) :
    Keeps i s (step s a).1 ∧ (step s a).2 ≠ .bug := by
  cases a with
  | attach acquired => exact attach_listed h he ha acquired
  | tryTakeWriter j consumer =>
    cases ha
    refine ⟨tryTakeWriter_keeps h (h.leased _ he.2) consumer, ?_⟩
    simp only [step, tryTakeWriter]
    split <;> exact nofun
  | dropLease j consumer =>
    cases ha
    refine ⟨dropLease_keeps h (h.leased _ he.2) he.1 consumer, ?_⟩
    simp only [step, dropLease]
    split <;> exact nofun
  | dropWriter j claim | relinquish j claim =>
    cases ha
    refine ⟨relinquish_keeps h (h.issued _ he.2).1 claim, ?_⟩
    simp only [step, relinquish, asWriter]
    split <;> exact nofun
  | commit j claim =>
    cases ha
    exact commit_keeps h (h.issued _ he.2).1 he.1 claim
  | fail j claim =>
    cases ha
    exact fail_keeps h (h.issued _ he.2).1 he.1 claim
  | enterWrite j claim =>
    cases ha
    simp only [step]
    split
    · refine ⟨writing_keeps _ h fun p hp => ?_, nofun⟩
      rcases List.mem_cons.mp hp with rfl | hp
      · exact (h.issued _ he.2).1
      · exact h.writing p hp
    · exact ⟨.refl h, nofun⟩
  | writeAt j claim data ok =>
    cases ha
    refine ⟨writeAt_keeps h (h.writing _ he) claim data ok, ?_⟩
    simp only [step, writeAt]
    split
    · split
      · exact nofun
      · split <;> exact nofun
    · exact nofun
  | stored ok | unlist | removed ok =>
    obtain ⟨⟨j, _⟩, hstage, rfl⟩ := Option.map_eq_some_iff.mp he
    rw [about, hstage, Option.map_some] at ha
    cases ha
    simp only [step, hstage, Option.elim_some]
    exact ⟨finish_keeps h hstage _, finish_answer _ _⟩
  | cancelRetired j =>
    cases ha
    exact ⟨cancelWriter_keeps h (h.retired _ he) fun _ => List.mem_of_mem_erase, nofun⟩
  | cancelSession j =>
    cases ha
    exact ⟨cancelWriter_keeps h he fun _ => id, nofun⟩
  | cancelStore => cases ha

/-- A step keeps sessions consistent and moves them on, and runs into no bug. -/
theorem step_advances {a : Action W} (h : Consistent s) (he : Enabled s a) :
    (Consistent (step s a).1 ∧ Advance s (step s a).1) ∧ (step s a).2 ≠ .bug := by
  cases ha : about s a with
  | some i =>
    obtain ⟨hkeeps, hbug⟩ := step_about h he ha
    exact ⟨⟨hkeeps.consistent, hkeeps.advance⟩, hbug⟩
  | none =>
    cases a with
    | attach acquired => exact attach_fresh h he ha acquired
    | cancelStore => exact ⟨⟨⟨h.listed, h.staged, h.fits, h.attached, h.leased, h.issued,
        h.claimed, h.writing, h.retired, h.unopened⟩,
        ⟨Nat.le_refl _, Nat.le_refl _, fun _ _ => .inl rfl, fun _ _ _ => .inl⟩⟩, nofun⟩
    | stored ok | unlist | removed ok =>
      obtain ⟨p, hstage, _⟩ := Option.map_eq_some_iff.mp he
      rw [about, hstage] at ha
      cases ha
    | _ => cases ha

theorem start_consistent : Consistent (start : State W) :=
  ⟨nofun, nofun, nofun, nofun, nofun, nofun, nofun, nofun, nofun, fun _ _ => rfl⟩

theorem run_advances {as : List (Action W)} (h : Consistent s) (hvalid : machine.ValidTrace s as) :
    Consistent (machine.runTrace s as) ∧ Advance s (machine.runTrace s as) := by
  induction as generalizing s with
  | nil => exact ⟨h, .refl s⟩
  | cons a as ih =>
    obtain ⟨⟨hnext, hadvance⟩, _⟩ := step_advances h hvalid.1
    obtain ⟨hend, hrest⟩ := ih hnext hvalid.2
    exact ⟨hend, hadvance.trans hrest⟩

/-- The claim an operation goes through. -/
def through : Action W → Option (ℕ × WriterClaim)
  | .dropWriter i claim | .relinquish i claim | .commit i claim | .fail i claim
  | .enterWrite i claim | .writeAt i claim _ _ => some (i, claim)
  | _ => none

/-- In every state: one writer, no claim but the current one has an effect, no assertion fails,
the index lists what is alive or could not be removed, one removal and none after a commit, and a
session that is over is out of reach. -/
structure Promised (s : State W) : Prop where
  oneWriter : ∀ i j claim claim', s.Current i claim → s.Current j claim' → i = j ∧ claim = claim'
  stale : ∀ a i claim, Enabled s a → through a = some (i, claim) → ¬ s.Current i claim →
    (step s a).1 = { s with writing := (step s a).1.writing } ∧
      ((step s a).2 = .stale ∨ (step s a).2 = .running ∧ a = .enterWrite i claim)
  noBug : ∀ a, Enabled s a → (step s a).2 ≠ .bug
  listed : s.stage = none → ∀ i < s.opened, s.slot = some i ↔
    (s.session i).phase = .active ∧ (∃ consumer, (i, consumer) ∈ s.leases) ∨
      (s.session i).phase = .cleanupFailed
  removes : ∀ i < s.opened, (s.session i).removes ≤ 1 ∧
    ((s.session i).phase = .committed → (s.session i).removes = 0)
  fresh : Enabled s (.attach .pending) → s.slot = none →
    (step s (.attach .pending)).1.slot = some s.opened ∧
      ((step s (.attach .pending)).1.session s.opened).phase = .active ∧
      ((step s (.attach .pending)).1.session s.opened).entries = [s.consumers] ∧
      (step s (.attach .pending)).2 = .attached s.opened
        (if s.cancelled then none else some ⟨s.claims, s.consumers⟩)
  late : ∀ a i, Enabled s a → about s a = some i → s.slot ≠ some i →
    (step s a).1.slot = s.slot ∧ (step s a).1.stage = s.stage ∧
      ∀ j ≠ i, (step s a).1.session j = s.session j

/-- From a state to a later one: what is committed stays so, and a claim that is not current does
not become current again. -/
structure Lasting (s t : State W) : Prop where
  committed : ∀ i < s.opened, (s.session i).phase = .committed → (t.session i).phase = .committed
  outdated : ∀ i claim, (i, claim) ∈ s.issued → ¬ s.Current i claim → ¬ t.Current i claim

theorem current_opened {claim : WriterClaim} (h : Consistent s) (hcurrent : s.Current i claim) :
    i < s.opened := by
  by_contra hnot
  have hphase := (current_iff.mp hcurrent).1
  rw [h.unopened i (Nat.le_of_not_lt hnot)] at hphase
  cases hphase

theorem oneWriter (h : Consistent s) {j : ℕ} {claim claim' : WriterClaim}
    (hi : s.Current i claim) (hj : s.Current j claim') : i = j ∧ claim = claim' := by
  have hslot := (current_fits h (current_opened h hi) hi).2.1
  have hslot' := (current_fits h (current_opened h hj) hj).2.1
  have hij : i = j := Option.some_inj.mp (hslot.symm.trans hslot')
  subst hij
  have hclaim := (current_iff.mp hi).2
  exact ⟨rfl, Option.some_inj.mp (hclaim.symm.trans (current_iff.mp hj).2)⟩

theorem stale_answers {a : Action W} {claim : WriterClaim} (ha : through a = some (i, claim))
    (hstale : ¬ s.Current i claim) :
    (step s a).1 = { s with writing := (step s a).1.writing } ∧
      ((step s a).2 = .stale ∨ (step s a).2 = .running ∧ a = .enterWrite i claim) := by
  have hnot (act : State W × Answer) : asWriter s i claim act = (s, .stale) :=
    asWriter_stale act fun hyes => hstale hyes.2
  cases a with
  | dropWriter j claim' | relinquish j claim' | commit j claim' | fail j claim' =>
    cases ha
    simp only [step, relinquish, commit, fail, hnot]
    exact ⟨trivial, .inl trivial⟩
  | enterWrite j claim' =>
    cases ha
    simp only [step]
    split
    · exact ⟨rfl, .inr ⟨rfl, trivial⟩⟩
    · exact ⟨rfl, .inl rfl⟩
  | writeAt j claim' data ok =>
    cases ha
    have hwrite : writeAt s i claim data ok =
        ({ s with writing := s.writing.erase (i, claim) }, .stale) := if_neg hstale
    rw [step, hwrite]
    exact ⟨rfl, .inl rfl⟩
  | _ => cases ha

theorem listed_iff (h : Consistent s) (hstage : s.stage = none) (hi : i < s.opened) :
    s.slot = some i ↔
      (s.session i).phase = .active ∧ (∃ consumer, (i, consumer) ∈ s.leases) ∨
        (s.session i).phase = .cleanupFailed := by
  have hfits := h.fits i hi
  rw [stageOf_none hstage] at hfits
  constructor
  · intro hslot
    by_cases hfailed : (s.session i).phase = .cleanupFailed
    · exact .inr hfailed
    · have hactive := fits_listed hfits hslot hfailed
      obtain ⟨consumer, hmem⟩ :=
        List.exists_mem_of_ne_nil _ ((fits_active hactive).mp hfits).2.2.1
      exact .inl ⟨hactive, consumer, (h.attached i hi consumer).mp hmem⟩
  · rintro (⟨hactive, _⟩ | hfailed)
    · exact ((fits_active hactive).mp hfits).2.1
    · simp only [PendingResource.Fits, hfailed] at hfits
      exact hfits.1

theorem removes_once (h : Consistent s) (hi : i < s.opened) : (s.session i).removes ≤ 1 ∧
    ((s.session i).phase = .committed → (s.session i).removes = 0) := by
  have hfits := h.fits i hi
  cases hstage : s.stageOf i with
  | none =>
    rw [hstage] at hfits
    simp only [PendingResource.Fits] at hfits
    split at hfits
    · rename_i hphase
      rw [hphase, hfits.2.2.2.2]
      exact ⟨Nat.zero_le _, fun _ => rfl⟩
    · rename_i hphase
      rw [hphase, hfits.2]
      exact ⟨Nat.le_refl _, nofun⟩
    · rw [hfits.2]
      exact ⟨Nat.zero_le _, fun _ => rfl⟩
    · rename_i hphase
      rw [hphase, hfits.2]
      exact ⟨Nat.le_refl _, nofun⟩
  | some stage =>
    rw [hstage] at hfits
    have hzero : (s.session i).removes = 0 := by cases stage <;> exact hfits.2.2
    rw [hzero]
    exact ⟨Nat.zero_le _, fun _ => rfl⟩

theorem attach_opens (hslot : s.slot = none) :
    (step s (.attach .pending)).1.slot = some s.opened ∧
      ((step s (.attach .pending)).1.session s.opened).phase = .active ∧
      ((step s (.attach .pending)).1.session s.opened).entries = [s.consumers] ∧
      (step s (.attach .pending)).2 = .attached s.opened
        (if s.cancelled then none else some ⟨s.claims, s.consumers⟩) := by
  have hnew : s.openSession.session s.opened = .new s.consumers := Function.update_self ..
  simp only [step, attach, hslot]
  cases hcancelled : s.cancelled with
  | true =>
    have helect : (s.openSession.session s.opened).electWriter s.openSession.cancelled s.consumers
        s.openSession.claims = none := by
      rw [hnew, show s.openSession.cancelled = true from hcancelled]
      rfl
    rw [elect_none helect, hnew]
    exact ⟨rfl, rfl, rfl, rfl⟩
  | false =>
    have helect : (s.openSession.session s.opened).electWriter s.openSession.cancelled s.consumers
        s.openSession.claims = some ⟨s.claims, s.consumers⟩ := by
      rw [hnew, show s.openSession.cancelled = false from hcancelled]
      rfl
    rw [elect_some helect]
    simp only [State.put, Function.update_self, hnew]
    exact ⟨rfl, rfl, rfl, rfl⟩

theorem late_unseen {a : Action W} (h : Consistent s) (he : Enabled s a)
    (ha : about s a = some i) (hlate : s.slot ≠ some i) :
    (step s a).1.slot = s.slot ∧ (step s a).1.stage = s.stage ∧
      ∀ j ≠ i, (step s a).1.session j = s.session j := by
  have hother := (step_about h he ha).1.touch.session
  have hnot (claim : WriterClaim) (act : State W × Answer) :
      asWriter s i claim act = (s, .stale) := asWriter_stale act fun hyes => hlate hyes.1
  suffices hsame : (step s a).1.slot = s.slot ∧ (step s a).1.stage = s.stage from
    ⟨hsame.1, hsame.2, hother⟩
  cases a with
  | attach acquired => exact absurd ha hlate
  | tryTakeWriter j consumer =>
    cases ha
    rw [step, tryTakeWriter, if_pos (.inl hlate)]
    exact ⟨rfl, rfl⟩
  | dropLease j consumer =>
    cases ha
    simp only [step, dropLease, ne_eq, hlate, not_false_eq_true, true_or, or_true, if_true]
    exact ⟨rfl, rfl⟩
  | dropWriter j claim | relinquish j claim | commit j claim | fail j claim =>
    cases ha
    simp only [step, relinquish, commit, fail, hnot, and_self]
  | enterWrite j claim =>
    cases ha
    rw [step, if_neg hlate]
    exact ⟨rfl, rfl⟩
  | writeAt j claim data ok =>
    cases ha
    simp only [step, writeAt]
    split
    · split
      · exact ⟨rfl, rfl⟩
      · split <;> exact ⟨rfl, rfl⟩
    · exact ⟨rfl, rfl⟩
  | stored ok | unlist | removed ok =>
    obtain ⟨⟨j, _⟩, hstage, rfl⟩ := Option.map_eq_some_iff.mp he
    rw [about, hstage, Option.map_some] at ha
    cases ha
    have hfits := h.fits j (h.staged j _ hstage)
    rw [stageOf_some hstage] at hfits
    exact absurd hfits.2.1 hlate
  | cancelRetired j | cancelSession j => exact ⟨rfl, rfl⟩
  | cancelStore => cases ha

theorem promised (h : Consistent s) : Promised s where
  oneWriter _ _ _ _ := oneWriter h
  stale _ _ _ _ := stale_answers
  noBug _ he := (step_advances h he).2
  listed hstage _ := listed_iff h hstage
  removes _ := removes_once h
  fresh _ := attach_opens
  late _ _ := late_unseen h

theorem lasting (h : Consistent s) (hadvance : Advance s t) : Lasting s t := by
  refine ⟨fun i hi hcommitted => ?_, fun i claim hissued hnot hcurrent => ?_⟩
  · rcases hadvance.phase i hi with hsame | hactive | ⟨hfinishing, _⟩
    · exact hsame.trans hcommitted
    · rw [hcommitted] at hactive
      cases hactive
    · rw [hcommitted] at hfinishing
      cases hfinishing
  · obtain ⟨hi, hid⟩ := h.issued _ hissued
    obtain ⟨hphase, hclaim⟩ := current_iff.mp hcurrent
    have hactive : (s.session i).phase = .active := by
      rcases hadvance.phase i hi with hsame | hactive | ⟨_, hne⟩
      · exact hsame.symm.trans hphase
      · exact hactive
      · exact absurd hphase hne
    rcases hadvance.claim i hi claim hclaim with hold | hnew
    · exact hnot (current_iff.mpr ⟨hactive, hold⟩)
    · exact absurd hid (Nat.not_lt.mpr hnew)

/-- Every order of operations on one resource keeps the promises of its sessions in each state, and
from each state to every later one. -/
theorem pending_session (as bs : List (Action W)) (hvalid : machine.ValidTrace start (as ++ bs)) :
    Promised (machine.runTrace start as) ∧
      Lasting (machine.runTrace start as) (machine.runTrace start (as ++ bs)) := by
  obtain ⟨hbefore, hafter⟩ := validTrace_append.mp hvalid
  have hconsistent := (run_advances start_consistent hbefore).1
  rw [runTrace_append]
  exact ⟨promised hconsistent, lasting hconsistent (run_advances hconsistent hafter).2⟩

/-- A follower takes over from the first writer, whose write comes too late; the commit fails, and
the next session is not the one its lease belongs to. -/
def handover : List (Action ℕ) :=
  [.attach .pending, .enterWrite 0 ⟨0, 0⟩, .attach .pending, .relinquish 0 ⟨0, 0⟩,
    .tryTakeWriter 0 1, .writeAt 0 ⟨0, 0⟩ 7 true, .commit 0 ⟨1, 1⟩, .stored false, .removed true]

/-- The next session, and the leases left of the one before. -/
def reopened : List (Action ℕ) :=
  [.attach .pending, .dropLease 0 0, .cancelRetired 0, .dropLease 0 1, .commit 1 ⟨2, 2⟩,
    .stored true, .unlist]

theorem pending_session_reopened :
    Promised (machine.runTrace (start : State ℕ) handover) ∧
      Lasting (machine.runTrace start handover) (machine.runTrace start (handover ++ reopened)) :=
  pending_session handover reopened (by decide)

end PendingResources

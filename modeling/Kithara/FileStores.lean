import Kithara.FileSession

/-! The resource that the consumers of a remote file share: what fills it is the remote's bytes at
their places, and its session lets one epoch after the other write them. -/
namespace FileSession

open CheckedArithmetic FileResponses RangeResponses RangeRuns StorageMemory TransitionSystem
open PendingResources (SessionPhase WriterClaim)

/-- The byte a reader finds. -/
def byteAt (core : ResourceCore) (p : ℕ) : Option UInt8 :=
  match core.driver.committed with
  | some snapshot => snapshot[p]?
  | none => core.driver.state.buf[p]?

/-- Every stored byte is the resource's. -/
def Genuine (resource : List UInt8) (core : ResourceCore) : Prop :=
  ∀ p ∈ core.available, p < resource.length ∧ byteAt core p = resource[p]?

/-- What is committed is the resource, all of it. -/
def Whole (resource : List UInt8) (core : ResourceCore) : Prop :=
  core.gate.committed = true →
    core.gate.finalLen = some resource.length ∧ ∀ p < resource.length, p ∈ core.available

/-- A core being filled: its stored bytes stand in the working buffer. -/
structure Filling (resource : List UInt8) (core : ResourceCore) : Prop where
  open_ : core.gate.committed = false
  unbounded : core.gate.finalLen = none
  unpublished : core.driver.committed = none
  working : core.driver.state.len ≤ core.driver.state.buf.length
  stored : ∀ p ∈ core.available, p < resource.length ∧ p < core.driver.state.len ∧
    core.driver.state.buf[p]? = resource[p]?

structure Filled (resource : List UInt8) (core : ResourceCore) : Prop where
  committed : core.gate.committed = true
  finalLen : core.gate.finalLen = some resource.length
  available : ∀ p, p ∈ core.available ↔ p < resource.length
  published : core.driver.committed.getD [] = resource

variable {resource : List UInt8} {core core' : ResourceCore}

/-- The buffer after a write: the data in its place, the bytes before unchanged elsewhere. -/
theorem spliced (buf data : List UInt8) (offset p : ℕ) :
    ((ensureLen buf (offset + data.length)).take offset ++ data ++
        (ensureLen buf (offset + data.length)).drop (offset + data.length))[p]? =
      if offset ≤ p ∧ p < offset + data.length then data[p - offset]?
      else (ensureLen buf (offset + data.length))[p]? := by
  have hlen := ensureLen_length buf (offset + data.length)
  generalize ensureLen buf (offset + data.length) = grown at hlen
  have htake : (grown.take offset).length = offset := by
    rw [List.length_take]
    omega
  rw [List.append_assoc]
  rcases Nat.lt_or_ge p offset with hbefore | hfrom
  · rw [List.getElem?_append_left (htake.symm ▸ hbefore), List.getElem?_take_of_lt hbefore,
      if_neg (by omega)]
  · rw [List.getElem?_append_right (htake.symm ▸ hfrom), htake]
    rcases Nat.lt_or_ge (p - offset) data.length with hin | hafter
    · rw [List.getElem?_append_left hin, if_pos (by omega)]
    · rw [List.getElem?_append_right hafter, List.getElem?_drop, if_neg (by omega)]
      congr 1
      omega

theorem ensured (buf : List UInt8) (n : ℕ) {p : ℕ} (h : p < buf.length) :
    (ensureLen buf n)[p]? = buf[p]? := by
  rw [ensureLen, List.getElem?_append_left h]

theorem Filling.genuine (h : Filling resource core) : Genuine resource core := by
  intro p hp
  rw [byteAt, h.unpublished]
  exact ⟨(h.stored p hp).1, (h.stored p hp).2.2⟩

theorem Filled.genuine (h : Filled resource core) : Genuine resource core := by
  intro p hp
  have hlt := (h.available p).mp hp
  refine ⟨hlt, ?_⟩
  cases hc : core.driver.committed with
  | none =>
    have hempty : resource = [] := by rw [← h.published, hc]; rfl
    simp [hempty] at hlt
  | some snapshot =>
    have hsame : snapshot = resource := by rw [← h.published, hc]; rfl
    rw [byteAt, hc, hsame]

theorem Filling.start (capacity : ℕ) : Filling resource (start capacity).session.core where
  open_ := rfl
  unbounded := rfl
  unpublished := rfl
  working := Nat.zero_le _
  stored p hp := absurd hp (RangeSet.not_mem_empty p)

theorem Filling.failWith (h : Filling resource core) (reason : String) :
    Filling resource (failWith core reason) :=
  ⟨h.open_, h.unbounded, h.unpublished, h.working, h.stored⟩

theorem Filling.dropGuard (h : Filling resource core) : Filling resource (dropGuard core) := by
  rw [FileSession.dropGuard]
  split
  · exact h
  · exact h.failWith _

theorem Filling.writeAt (h : Filling resource core) {offset n : ℕ} {granted : Bool}
    (hbound : offset + n ≤ resource.length)
    (hw : core.writeAt offset ((resource.drop offset).take n) granted = .ok core') :
    Filling resource core' := by
  have hlen : ((resource.drop offset).take n).length = n := by
    rw [List.length_take, List.length_drop]
    omega
  generalize hdata : (resource.drop offset).take n = data at hlen hw
  rw [ResourceCore.writeAt] at hw
  split at hw
  · cases hw
    exact h
  · split at hw
    · cases hw
    · split at hw
      · cases hw
      · rename_i finish hadd
        have hfinish : finish = offset + n := by
          rw [checkedAdd, hlen] at hadd
          split at hadd
          · exact (Option.some_inj.mp hadd).symm
          · cases hadd
        simp only [MemDriver.writeAt, h.open_, Bool.false_eq_true, if_false, hlen] at hw
        split at hw
        · cases hw
        · cases hw
          refine ⟨h.open_, h.unbounded, h.unpublished, ?_, ?_⟩
          · have hw := h.working
            simp only [List.length_append, List.length_take, List.length_drop, ensureLen_length]
            omega
          · intro p hp
            dsimp only
            rw [← hlen, spliced, hlen]
            rcases RangeSet.mem_insert.mp hp with hin | hold
            · have hat : data[p - offset]? = resource[p]? := by
                rw [← hdata, List.getElem?_take_of_lt (by omega), List.getElem?_drop]
                congr 1
                omega
              rw [if_pos (hfinish ▸ hin)]
              exact ⟨by omega, by omega, hat⟩
            · obtain ⟨hlt, hworking, hbyte⟩ := h.stored p hold
              have hfit := h.working
              refine ⟨hlt, by omega, ?_⟩
              split
              · have hat : data[p - offset]? = resource[p]? := by
                  rw [← hdata, List.getElem?_take_of_lt (by omega), List.getElem?_drop]
                  congr 1
                  omega
                exact hat
              · rw [ensured _ _ (by omega), hbyte]

theorem gap_none {limit : ℕ} (h : core.gate.finalLen = none) {from_ : ℕ}
    (hgap : core.nextGap from_ limit = none) : ∀ p, from_ ≤ p → p < limit → p ∈ core.available := by
  intro p hfrom hlt
  rw [ResourceCore.nextGap, h, Option.getD_none, Nat.min_self, if_neg (by omega)] at hgap
  have hnil := List.head?_eq_none_iff.mp (Option.map_eq_none_iff.mp hgap)
  exact RangeSet.gaps_eq_nil.mp hnil p hfrom hlt

theorem gap_some {limit : ℕ} (h : core.gate.finalLen = none) {gap : ℕ × ℕ}
    (hgap : core.nextGap 0 limit = some gap) : ∃ p < limit, p ∉ core.available := by
  by_contra hall
  have hnil : core.available.gaps 0 limit = [] := by
    refine RangeSet.gaps_eq_nil.mpr fun p _ hp => ?_
    by_contra hno
    exact hall ⟨p, hp, hno⟩
  rw [ResourceCore.nextGap, h, Option.getD_none, Nat.min_self] at hgap
  split at hgap
  · cases hgap
  · rw [hnil] at hgap
    cases hgap

theorem Filling.commit (h : Filling resource core)
    (hall : ∀ p < resource.length, p ∈ core.available)
    (hc : core.commit (some resource.length) = .ok core') : Filled resource core' := by
  rw [ResourceCore.commit] at hc
  split at hc
  · cases hc
  · cases hc
    have hfit := h.working
    have hlen : resource.length ≤ core.driver.state.len := by
      by_contra hshort
      have hlast := (h.stored (resource.length - 1) (hall _ (by omega))).2.1
      omega
    have hfinish : min resource.length core.driver.state.len = resource.length := by omega
    have htake : core.driver.state.buf.take resource.length = resource := by
      apply List.ext_getElem?
      intro p
      rcases Nat.lt_or_ge p resource.length with hp | hp
      · rw [List.getElem?_take_of_lt hp, (h.stored p (hall p hp)).2.2]
      · rw [List.getElem?_eq_none hp, List.getElem?_eq_none (by rw [List.length_take]; omega)]
    refine ⟨rfl, rfl, fun p => ?_, ?_⟩
    · show p ∈ (if resource.length > 0 then core.available.insert 0 resource.length
        else core.available) ↔ p < resource.length
      rw [mem_publish]
      exact ⟨fun hp => hp.elim id fun hp => (h.stored p hp).1, .inl⟩
    · show (core.driver.commit (some resource.length)).committed.getD [] = resource
      rw [MemDriver.commit, Option.getD_some, hfinish, if_neg (by omega)]
      split
      · next hzero => exact (List.eq_nil_of_length_eq_zero hzero).symm
      · exact htake

structure Sound (resource : List UInt8) (s : Session) : Prop where
  core : Filling resource s.core ∨ Filled resource s.core
  active : s.phase = .active → s.listed = true ∧ s.core.gate.committed = false
  claimed : ∀ c ∈ s.writerClaim, c.id < s.claims

/-- No claim made before becomes current. -/
structure After (s t : Session) : Prop where
  claims : s.claims ≤ t.claims
  current : ∀ c : WriterClaim, c.id < s.claims → t.isCurrent c = true → s.isCurrent c = true

theorem After.refl (s : Session) : After s s := ⟨le_rfl, fun _ _ h => h⟩

theorem isCurrent_iff {s : Session} {c : WriterClaim} :
    s.isCurrent c = true ↔ s.listed = true ∧ s.phase = .active ∧ s.writerClaim = some c := by
  simp [Session.isCurrent, Session.isCurrentWriter]

theorem isCurrentWriter_iff {s : Session} {c : WriterClaim} :
    s.isCurrentWriter c = true ↔ s.phase = .active ∧ s.writerClaim = some c := by
  simp [Session.isCurrentWriter]

theorem After.over {s t : Session} (hclaims : s.claims ≤ t.claims) (hover : t.phase ≠ .active) :
    After s t :=
  ⟨hclaims, fun _ _ h => absurd (isCurrent_iff.mp h).2.1 hover⟩

section Session

variable {s : Session} {c : WriterClaim}

theorem Sound.filling (h : Sound resource s) (hactive : s.phase = .active) :
    Filling resource s.core := by
  rcases h.core with hfilling | hfilled
  · exact hfilling
  · have hopen := (h.active hactive).2
    rw [hfilled.committed] at hopen
    cases hopen

theorem finish_over (core : ResourceCore) (removed : Bool) :
    (s.finish core removed).phase ≠ .active := by
  cases removed with
  | false => exact fun h => SessionPhase.noConfusion h
  | true => exact fun h => SessionPhase.noConfusion h

theorem finish_sound (h : Filling resource core ∨ Filled resource core) (removed : Bool) :
    Sound resource (s.finish core removed) :=
  ⟨h, fun hactive => absurd hactive (finish_over core removed), fun _ hc => by cases hc⟩

theorem electWriter_spec (h : Sound resource s) (consumer : ℕ) :
    Sound resource (s.electWriter consumer).1 ∧ After s (s.electWriter consumer).1 ∧
      (s.electWriter consumer).1.core = s.core ∧
      ∀ claim ∈ (s.electWriter consumer).2,
        (s.electWriter consumer).1.isCurrent claim = true ∧
          claim.id < (s.electWriter consumer).1.claims := by
  rw [Session.electWriter]
  split
  · exact ⟨h, .refl s, rfl, fun _ hc => by cases hc⟩
  · rename_i hfree
    simp only [Bool.or_eq_true, decide_eq_true_eq, not_or, ne_eq, not_not] at hfree
    obtain ⟨⟨-, hactive⟩, hnone⟩ := hfree
    refine ⟨⟨h.core, h.active, ?_⟩, ⟨Nat.le_succ _, ?_⟩, rfl, ?_⟩
    · intro c hc
      cases hc
      exact Nat.lt_succ_self _
    · intro c hc hcur
      have hnew := (isCurrent_iff.mp hcur).2.2
      have hid := congrArg WriterClaim.id (Option.some_inj.mp hnew)
      exact absurd hc (by rw [← hid]; exact Nat.lt_irrefl _)
    · rintro claim ⟨⟩
      exact ⟨isCurrent_iff.mpr ⟨(h.active hactive).1, hactive, rfl⟩, Nat.lt_succ_self _⟩

theorem tryTakeWriter_spec (h : Sound resource s) (consumer : ℕ) :
    Sound resource (s.tryTakeWriter consumer).1 ∧ After s (s.tryTakeWriter consumer).1 ∧
      (s.tryTakeWriter consumer).1.core = s.core ∧
      (∀ claim ∈ (s.tryTakeWriter consumer).2,
        (s.tryTakeWriter consumer).1.isCurrent claim = true ∧
          claim.id < (s.tryTakeWriter consumer).1.claims) ∧
      (s.tryTakeWriter consumer).1.entries = s.entries := by
  rw [Session.tryTakeWriter]
  split
  · obtain ⟨hsound, hafter, hcore, hclaim⟩ := electWriter_spec h consumer
    refine ⟨hsound, hafter, hcore, hclaim, ?_⟩
    rw [Session.electWriter]
    split <;> rfl
  · exact ⟨h, .refl s, rfl, fun _ hc => (by cases hc), rfl⟩

theorem relinquish_spec (h : Sound resource s) (claim : WriterClaim) :
    Sound resource (s.relinquish claim) ∧ After s (s.relinquish claim) := by
  rw [Session.relinquish]
  split
  · refine ⟨⟨h.core, h.active, fun _ hc => by cases hc⟩, le_rfl, fun c _ hcur => ?_⟩
    cases (isCurrent_iff.mp hcur).2.2
  · exact ⟨h, .refl s⟩

theorem fail_spec (h : Sound resource s) (claim : WriterClaim) (reason : String)
    (removed : Bool) :
    Sound resource (s.fail claim reason removed).1 ∧ After s (s.fail claim reason removed).1 := by
  rw [Session.fail]
  split
  · rename_i hcur
    have hfilling := h.filling (isCurrent_iff.mp hcur).2.1
    exact ⟨finish_sound (.inl (hfilling.failWith reason)) removed,
      .over le_rfl (finish_over _ removed)⟩
  · exact ⟨h, .refl s⟩

/-- A commit of the whole resource; one that succeeds or fails ends the session. -/
theorem commit_spec (h : Sound resource s) (claim : WriterClaim) (stored removed : Bool)
    (hall : s.phase = .active → ∀ p < resource.length, p ∈ s.core.available) :
    Sound resource (s.commit claim resource.length stored removed).1 ∧
      After s (s.commit claim resource.length stored removed).1 ∧
      ((s.commit claim resource.length stored removed).2 ≠ none →
        (s.commit claim resource.length stored removed).1.phase ≠ .active) := by
  by_cases hcur : s.isCurrent claim = true
  · rw [Session.commit, if_pos hcur]
    have hactive := (isCurrent_iff.mp hcur).2.1
    have hfilling := h.filling hactive
    have hgone := finish_over (s := s) (dropGuard s.core) removed
    have hfailed := finish_sound (s := s) (.inl hfilling.dropGuard) removed
    split
    · rename_i core' hcommit
      have hfilled := hfilling.commit (hall hactive) hcommit
      split
      · have hover : SessionPhase.committed ≠ .active := SessionPhase.noConfusion
        exact ⟨⟨.inr hfilled, fun ha => absurd ha hover, fun _ hc => by cases hc⟩,
          .over le_rfl hover, fun _ => hover⟩
      · exact ⟨hfailed, .over le_rfl hgone, fun _ => hgone⟩
    · exact ⟨hfailed, .over le_rfl hgone, fun _ => hgone⟩
  · rw [Session.commit, if_neg hcur]
    exact ⟨h, .refl s, fun hne => absurd rfl hne⟩

theorem writeAt_spec (h : Sound resource s) (claim : WriterClaim) {offset n : ℕ}
    (granted : Bool) (hbound : s.isCurrent claim = true → offset + n ≤ resource.length) :
    Sound resource (s.writeAt claim offset ((resource.drop offset).take n) granted).1 ∧
      After s (s.writeAt claim offset ((resource.drop offset).take n) granted).1 := by
  rw [Session.writeAt]
  split
  · rename_i hcur
    split
    · rename_i core' hwrite
      have hfilling := (h.filling (isCurrent_iff.mp hcur).2.1).writeAt (hbound hcur) hwrite
      exact ⟨⟨.inl hfilling, fun ha => ⟨(h.active ha).1, hfilling.open_⟩, h.claimed⟩, le_rfl,
        fun _ _ hc => isCurrent_iff.mpr (isCurrent_iff.mp hc)⟩
    · exact ⟨h, .refl s⟩
  · exact ⟨h, .refl s⟩

theorem dropLease_spec (h : Sound resource s) (consumer : ℕ) (removed : Bool) :
    Sound resource (s.dropLease consumer removed) ∧ After s (s.dropLease consumer removed) := by
  rw [Session.dropLease]
  dsimp only
  split
  · refine ⟨⟨h.core, h.active, fun c hc => ?_⟩, le_rfl, fun c _ hcur => ?_⟩
    · exact h.claimed c (Option.filter_eq_some_iff.mp hc).1
    · obtain ⟨hlisted, hactive, hclaim⟩ := isCurrent_iff.mp hcur
      exact isCurrent_iff.mpr ⟨hlisted, hactive, (Option.filter_eq_some_iff.mp hclaim).1⟩
  · refine ⟨finish_sound ?_ removed, .over le_rfl (finish_over _ removed)⟩
    rcases h.core with hfilling | hfilled
    · exact .inl hfilling.dropGuard
    · refine .inr ?_
      rw [dropGuard, if_pos (.inr (.inl hfilled.committed))]
      exact hfilled

end Session

end FileSession

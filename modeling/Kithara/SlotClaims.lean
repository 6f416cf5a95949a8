import Kithara.HlsSegmentSlot

/-! A slot among its callers: claim attempts, the slow hook, evictions, reader demand and the
settle of the claim's owner, each access to a shared word a step of its own. The history is kept
beside the state only to say which claim loaded the slot and what happened since. -/
namespace SlotClaims

open HlsSegmentSlot SegmentSlotState

inductive Outcome where
  | loaded
  | missing
  | failed
  deriving DecidableEq, Repr

/-- A settle stores the flags first and clears the demand after; a reader's demand is filed
after the flags were seen. -/
inductive Event where
  | claim (attempt : ℕ)
  | slow
  | evict
  | seeDemand
  | fileDemand
  | settle (attempt : ℕ) (outcome : Outcome)
  | clearDemand
  deriving DecidableEq, Repr

structure System where
  slot : SegmentSlotState
  outstanding : List ℕ
  filing : ℕ
  clearing : ℕ
  history : List Event

def initial : System := ⟨.missing, [], 0, 0, []⟩

def settledFlags (s : SegmentSlotState) : Outcome → SlotFlags
  | .loaded => s.markLoaded.1.flags
  | .missing => s.markMissing.flags
  | .failed => s.markFailed.flags

/-- The slow hook lives as long as the claim's fetch; only an owner settles; a store that is
under way was begun. -/
def Enabled (s : System) : Event → Prop
  | .claim attempt => .claim attempt ∉ s.history
  | .slow => s.outstanding ≠ []
  | .evict => True
  | .seeDemand => True
  | .fileDemand => 0 < s.filing
  | .settle attempt _ => attempt ∈ s.outstanding
  | .clearDemand => 0 < s.clearing

def next (s : System) : Event → System
  | .claim attempt =>
    match s.slot.tryClaim with
    | some slot => { s with slot := slot, outstanding := attempt :: s.outstanding }
    | none => s
  | .slow => { s with slot := s.slot.markSlow }
  | .evict => { s with slot := s.slot.markEvicted }
  | .seeDemand => if s.slot.flags.downloading then { s with filing := s.filing + 1 } else s
  | .fileDemand =>
    { s with slot := { s.slot with readerDemand := true }, filing := s.filing - 1 }
  | .settle attempt outcome =>
    { s with
      slot := { s.slot with flags := settledFlags s.slot outcome }
      outstanding := s.outstanding.erase attempt
      clearing := s.clearing + 1 }
  | .clearDemand =>
    { s with slot := { s.slot with readerDemand := false }, clearing := s.clearing - 1 }

def Step (s : System) (e : Event) (t : System) : Prop :=
  Enabled s e ∧ t = { next s e with history := e :: s.history }

inductive Reachable : System → Prop where
  | initial : Reachable initial
  | step {s e t} (hs : Reachable s) (h : Step s e t) : Reachable t

/-- Run without a step in between, the two stores of a settle are the settle. -/
theorem settle_stores (s : SegmentSlotState) :
    s.markLoaded.1 = { s with flags := settledFlags s .loaded, readerDemand := false } ∧
      s.markMissing = { s with flags := settledFlags s .missing, readerDemand := false } ∧
      s.markFailed = { s with flags := settledFlags s .failed, readerDemand := false } :=
  ⟨rfl, rfl, rfl⟩

def loadedFlags : SlotFlags := { SlotFlags.empty with loaded := true }

def failedFlags : SlotFlags := { SlotFlags.empty with failed := true }

/-- The claim was taken, and an eviction since then left its mark. -/
def Taken (s : System) (attempt : ℕ) : Prop :=
  ∃ since before, s.history = since ++ .claim attempt :: before ∧
    (.evict ∈ since → s.slot.flags.evicted = true)

/-- A claim settled the slot loaded, and no eviction happened since the claim was taken. -/
def Published (history : List Event) : Prop :=
  ∃ attempt later during before,
    history = later ++ .settle attempt .loaded :: (during ++ .claim attempt :: before) ∧
      .evict ∉ later ∧ .evict ∉ during

structure Consistent (s : System) : Prop where
  single : s.outstanding.length ≤ 1
  busy : ∀ attempt ∈ s.outstanding, s.slot.flags.downloading = true ∧ s.slot.settled = false ∧
    Taken s attempt
  free : s.outstanding = [] → s.slot.flags = .empty ∨ s.slot.flags = failedFlags ∨
    (s.slot.flags = loadedFlags ∧ Published s.history)

theorem published_later {history : List Event} {e : Event} (h : Published history)
    (he : e ≠ .evict) : Published (e :: history) := by
  obtain ⟨attempt, later, during, before, rfl, hlater, hduring⟩ := h
  refine ⟨attempt, e :: later, during, before, rfl, ?_, hduring⟩
  intro hmem
  rcases List.mem_cons.mp hmem with heq | hmem
  · exact he heq.symm
  · exact hlater hmem

theorem taken_later {s t : System} {e : Event} {attempt : ℕ} (h : Taken s attempt)
    (ht : t.history = e :: s.history)
    (hmark : e = .evict ∨ s.slot.flags.evicted = true → t.slot.flags.evicted = true) :
    Taken t attempt := by
  obtain ⟨since, before, hs, hevict⟩ := h
  refine ⟨e :: since, before, by rw [ht, hs, List.cons_append], ?_⟩
  intro hmem
  rcases List.mem_cons.mp hmem with heq | hmem
  · exact hmark (.inl heq.symm)
  · exact hmark (.inr (hevict hmem))

theorem demand_consistent {s t : System} {e : Event} (h : Consistent s)
    (hflags : t.slot.flags = s.slot.flags) (hout : t.outstanding = s.outstanding)
    (ht : t.history = e :: s.history) (he : e ≠ .evict) : Consistent t := by
  refine ⟨by rw [hout]; exact h.single, ?_, ?_⟩
  · intro attempt hmem
    rw [hout] at hmem
    obtain ⟨hdown, hsettled, htaken⟩ := h.busy attempt hmem
    rw [settled] at hsettled ⊢
    rw [hflags]
    refine ⟨hdown, hsettled, taken_later htaken ht ?_⟩
    rintro (heq | hmark)
    · exact absurd heq he
    · rw [hflags]
      exact hmark
  · intro hempty
    rw [hout] at hempty
    rw [hflags, ht]
    rcases h.free hempty with hfree | hfailed | ⟨hloaded, hpublished⟩
    · exact .inl hfree
    · exact .inr (.inl hfailed)
    · exact .inr (.inr ⟨hloaded, published_later hpublished he⟩)

theorem unclaimed_outstanding {s : System} (h : Consistent s)
    (hdown : s.slot.flags.downloading = false) : s.outstanding = [] := by
  cases hout : s.outstanding with
  | nil => rfl
  | cons attempt rest =>
    have hbusy := (h.busy attempt (by rw [hout]; exact List.mem_cons_self)).1
    rw [hdown] at hbusy
    cases hbusy

theorem step_consistent {s t : System} {e : Event} (h : Consistent s) (hstep : Step s e t) :
    Consistent t := by
  obtain ⟨henabled, rfl⟩ := hstep
  cases e with
  | claim attempt =>
    cases hclaim : s.slot.tryClaim with
    | none =>
      have hnext : next s (.claim attempt) = s := by rw [next, hclaim]
      rw [hnext]
      exact demand_consistent h rfl rfl rfl (by simp)
    | some slot =>
      obtain ⟨hidle, _, hdown, hsettled⟩ := tryClaim_eq_some hclaim
      have hnone := unclaimed_outstanding h hidle
      have hnext : next s (.claim attempt) =
          { s with slot := slot, outstanding := attempt :: s.outstanding } := by rw [next, hclaim]
      rw [hnext, hnone]
      refine ⟨le_rfl, ?_, by simp⟩
      intro other hmem
      obtain rfl := List.mem_singleton.mp hmem
      exact ⟨hdown, hsettled, [], s.history, rfl, by simp⟩
  | slow =>
    refine ⟨h.single, ?_, ?_⟩
    · intro attempt hmem
      obtain ⟨hdown, hsettled, htaken⟩ := h.busy attempt hmem
      refine ⟨hdown, hsettled, taken_later htaken rfl ?_⟩
      rintro (heq | hmark)
      · cases heq
      · exact hmark
    · intro hempty
      exact absurd hempty henabled
  | evict =>
    refine ⟨h.single, ?_, ?_⟩
    · intro attempt hmem
      obtain ⟨hdown, hsettled, htaken⟩ := h.busy attempt hmem
      obtain ⟨hdown', hsettled'⟩ := markEvicted_inFlight hdown
      refine ⟨hdown', hsettled'.trans hsettled, taken_later htaken rfl fun _ => ?_⟩
      simp [next, markEvicted, hdown]
    · intro hempty
      have hidle : s.slot.flags.downloading = false := by
        rcases h.free hempty with hfree | hfailed | ⟨hloaded, _⟩
        · rw [hfree]
          rfl
        · rw [hfailed]
          rfl
        · rw [hloaded]
          rfl
      refine .inl ?_
      simp [next, markEvicted, hidle]
  | seeDemand =>
    by_cases hdown : s.slot.flags.downloading = true
    · have hnext : next s .seeDemand = { s with filing := s.filing + 1 } := by
        rw [next, if_pos hdown]
      rw [hnext]
      exact demand_consistent h rfl rfl rfl (by simp)
    · have hnext : next s .seeDemand = s := by rw [next, if_neg hdown]
      rw [hnext]
      exact demand_consistent h rfl rfl rfl (by simp)
  | fileDemand => exact demand_consistent h rfl rfl rfl (by simp)
  | settle attempt outcome =>
    have hout : s.outstanding.erase attempt = [] := by
      have hsingle := h.single
      have hlength := List.length_erase_of_mem henabled
      exact List.length_eq_zero_iff.mp (by omega)
    refine ⟨?_, ?_, ?_⟩
    · show (s.outstanding.erase attempt).length ≤ 1
      rw [hout]
      exact Nat.zero_le 1
    · intro other hmem
      change other ∈ s.outstanding.erase attempt at hmem
      rw [hout] at hmem
      cases hmem
    · intro _
      cases outcome with
      | missing => exact .inl rfl
      | failed => exact .inr (.inl rfl)
      | loaded =>
        obtain ⟨_, _, since, before, hhistory, hevict⟩ := h.busy attempt henabled
        by_cases hmark : s.slot.flags.evicted = true
        · refine .inl ?_
          simp [next, settledFlags, markLoaded, SegmentSlotState.settle, hmark]
        · refine .inr (.inr ⟨?_, attempt, [], since, before, ?_, by simp, fun hmem => hmark (hevict hmem)⟩)
          · simp [next, settledFlags, markLoaded, SegmentSlotState.settle, hmark, loadedFlags]
          · show Event.settle attempt .loaded :: s.history = _
            rw [hhistory]
            rfl
  | clearDemand => exact demand_consistent h rfl rfl rfl (by simp)

theorem reachable_consistent {s : System} (h : Reachable s) : Consistent s := by
  induction h with
  | initial => exact ⟨Nat.zero_le 1, by simp [initial], fun _ => .inl rfl⟩
  | step _ hstep ih => exact step_consistent ih hstep

def AtMostOne (flags : SlotFlags) : Prop :=
  ¬ (flags.downloading = true ∧ flags.loaded = true) ∧
    ¬ (flags.downloading = true ∧ flags.failed = true) ∧
    ¬ (flags.loaded = true ∧ flags.failed = true)

theorem consistent_exclusive {s : System} (h : Consistent s) : AtMostOne s.slot.flags := by
  cases hout : s.outstanding with
  | nil =>
    rcases h.free hout with hfree | hfailed | ⟨hloaded, _⟩
    · rw [hfree]
      simp [AtMostOne, SlotFlags.empty]
    · rw [hfailed]
      simp [AtMostOne, failedFlags, SlotFlags.empty]
    · rw [hloaded]
      simp [AtMostOne, loadedFlags, SlotFlags.empty]
  | cons attempt rest =>
    obtain ⟨hdown, hsettled, _⟩ := h.busy attempt (by rw [hout]; exact List.mem_cons_self)
    rw [settled, Bool.or_eq_false_iff] at hsettled
    simp [AtMostOne, hdown, hsettled.1, hsettled.2]

theorem consistent_loaded {s : System} (h : Consistent s) (hloaded : s.slot.flags.loaded = true) :
    Published s.history := by
  cases hout : s.outstanding with
  | nil =>
    rcases h.free hout with hfree | hfailed | ⟨_, hpublished⟩
    · rw [hfree] at hloaded
      cases hloaded
    · rw [hfailed] at hloaded
      cases hloaded
    · exact hpublished
  | cons attempt rest =>
    obtain ⟨_, hsettled, _⟩ := h.busy attempt (by rw [hout]; exact List.mem_cons_self)
    rw [settled, hloaded, Bool.true_or] at hsettled
    cases hsettled

theorem consistent_claimable {s : System} (h : Consistent s) (hout : s.outstanding = [])
    (hloaded : s.slot.flags.loaded = false) (hfailed : s.slot.flags.failed = false) :
    ∃ slot, s.slot.tryClaim = some slot := by
  rcases h.free hout with hfree | hfail | ⟨hload, _⟩
  · exact ⟨_, if_pos hfree⟩
  · rw [hfail] at hfailed
    cases hfailed
  · rw [hload] at hloaded
    cases hloaded

theorem downloading_unclaimable {s : SegmentSlotState} (h : s.flags.downloading = true) :
    s.tryClaim = none := by
  refine if_neg ?_
  intro hempty
  rw [hempty] at h
  cases h

/-- In every interleaving: one claim at most is outstanding; one exclusive state at most is set; a
loaded slot was loaded by a claim that no eviction followed; an eviction leaves an outstanding
claim its slot; and a slot that nothing holds and that is neither loaded nor failed is claimed by
the next attempt. -/
theorem slot_claims_safe {s : System} (h : Reachable s) :
    s.outstanding.length ≤ 1 ∧ AtMostOne s.slot.flags ∧
    (s.slot.flags.loaded = true → Published s.history) ∧
    (∀ attempt t, attempt ∈ s.outstanding → Step s .evict t →
      attempt ∈ t.outstanding ∧ t.slot.flags.downloading = true ∧ t.slot.tryClaim = none) ∧
    (s.outstanding = [] → s.slot.flags.loaded = false → s.slot.flags.failed = false →
      ∀ attempt t, Step s (.claim attempt) t → t.outstanding = [attempt]) := by
  have hs := reachable_consistent h
  refine ⟨hs.single, consistent_exclusive hs, consistent_loaded hs, ?_, ?_⟩
  · intro attempt t hmem hstep
    have ht := step_consistent hs hstep
    have hmem' : attempt ∈ t.outstanding := by
      rw [hstep.2]
      exact hmem
    have hdown := (ht.busy attempt hmem').1
    exact ⟨hmem', hdown, downloading_unclaimable hdown⟩
  · intro hout hloaded hfailed attempt t hstep
    obtain ⟨slot, hslot⟩ := consistent_claimable hs hout hloaded hfailed
    rw [hstep.2]
    show (next s (.claim attempt)).outstanding = [attempt]
    rw [next, hslot, hout]

theorem slot_claims_safe_evicted : ∃ s t, Reachable s ∧ 7 ∈ s.outstanding ∧ Step s .evict t ∧
    t.slot.flags.downloading = true := by
  have hclaim : Step initial (.claim 7) { next initial (.claim 7) with history := [.claim 7] } :=
    ⟨List.not_mem_nil, rfl⟩
  have hs := Reachable.step .initial hclaim
  have hmem : 7 ∈ (next initial (.claim 7)).outstanding := by decide
  exact ⟨_, _, hs, hmem, ⟨trivial, rfl⟩, ((slot_claims_safe hs).2.2.2.1 7 _ hmem ⟨trivial, rfl⟩).2.1⟩

end SlotClaims

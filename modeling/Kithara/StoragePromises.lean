import Kithara.StorageViews

/-! Availability never over-promises: what the wait and the coverage probe answer is backed by
bytes as long as availability stays below what a read reaches. A commit on a buffer longer than
its prefix, and a write past a still published snapshot, are the only steps that can break it. -/
namespace StoragePromises

open RangeRuns TransitionSystem StorageMemory StorageViews

def NeverOverPromises (s : ResourceCore) : Prop :=
  ∀ a b, a < b →
    (s.waitRange a b = .ok (some .ready) →
      ∃ bytes, s.readAt a (b - a) = .ok bytes ∧ 0 < bytes.length) ∧
    (s.containsRange a b = true →
      ∃ bytes, s.readAt a (b - a) = .ok bytes ∧ bytes.length = b - a)

structure Backed (s : ResourceCore) : Prop where
  available : ∀ x ∈ s.available, x < readable s
  final : s.gate.committed = true → ∀ n, s.gate.finalLen = some n → n ≤ readable s

/-- A commit that still finds its bytes in the working buffer finds none available past its
length; an accepted write stays within the snapshot that is still published. -/
def StepBacked (s : ResourceCore) : Action → Prop
  | .write offset data granted => Accepts s offset data granted →
      ∀ v, s.driver.committed = some v → offset + data.length ≤ v.length
  | .commit n => n ≤ s.driver.state.buf.length → ∀ x ∈ s.available, x < n
  | .reactivate _ => True

theorem waitRange_ready {s : ResourceCore} (h : Invariant s) {a b : ℕ} (hab : a < b) :
    s.waitRange a b = .ok (some .ready) ↔ rangeCoveredBy s.available a b = true ∨
      (s.gate.committed = true ∧ a < s.gate.finalLen.getD 0) := by
  simp only [ResourceCore.waitRange]
  rw [if_neg (by omega), if_neg (by omega)]
  simp only [h.uncancelled, h.unfailed]
  cases hcov : rangeCoveredBy s.available a b with
  | true => simp
  | false =>
    cases hc : s.gate.committed with
    | false => simp
    | true =>
      by_cases ha : s.gate.finalLen.getD 0 ≤ a
      · simp [ha]
      · simp [ha, Nat.lt_of_not_le ha]

theorem neverOverPromises_iff {s : ResourceCore} (h : Invariant s) :
    NeverOverPromises s ↔ Backed s := by
  constructor
  · intro hp
    have one {x : ℕ} (hx : s.waitRange x (x + 1) = .ok (some .ready)) : x < readable s := by
      obtain ⟨bytes, hbytes, hpos⟩ := (hp x (x + 1) (by omega)).1 hx
      obtain ⟨bytes', hbytes', hlen⟩ := readAt_length h x (x + 1 - x)
      obtain rfl : bytes = bytes' := Except.ok.inj (hbytes.symm.trans hbytes')
      omega
    constructor
    · intro x hx
      refine one ((waitRange_ready h (by omega)).mpr (Or.inl (rangeCoveredBy_iff.mpr ?_)))
      intro y h1 h2
      obtain rfl : y = x := by omega
      exact hx
    · intro hc n hn
      by_contra hlt
      have hready := one ((waitRange_ready h (by omega)).mpr
        (Or.inr ⟨hc, show readable s < s.gate.finalLen.getD 0 by rw [hn]; exact not_le.mp hlt⟩))
      exact absurd hready (lt_irrefl _)
  · intro hb a b hab
    obtain ⟨bytes, hbytes, hlen⟩ := readAt_length h a (b - a)
    constructor
    · intro hready
      refine ⟨bytes, hbytes, ?_⟩
      have ha : a < readable s := by
        rcases (waitRange_ready h hab).mp hready with hcov | ⟨hc, hf⟩
        · exact hb.available a (rangeCoveredBy_iff.mp hcov a le_rfl hab)
        · cases hn : s.gate.finalLen with
          | none =>
            rw [hn] at hf
            exact absurd hf (Nat.not_lt_zero a)
          | some n =>
            rw [hn] at hf
            exact lt_of_lt_of_le hf (hb.final hc n hn)
      omega
    · intro hcontains
      refine ⟨bytes, hbytes, ?_⟩
      have hbr : b ≤ readable s := by
        simp only [ResourceCore.containsRange] at hcontains
        rw [if_neg (by omega)] at hcontains
        cases hs : s.driver.committed with
        | some v => simpa [MemDriver.committedLen, hs, readable] using hcontains
        | none =>
          simp only [MemDriver.committedLen, hs, Option.map_none] at hcontains
          have := hb.available (b - 1) (rangeCoveredBy_iff.mp hcontains (b - 1) (by omega) (by omega))
          omega
      omega

theorem readable_of_snapshot {s : ResourceCore} {v : List UInt8}
    (h : s.driver.committed = some v) : readable s = v.length := by
  rw [readable, h]

theorem readable_of_working {s : ResourceCore} (h : s.driver.committed = none) :
    readable s = min (s.gate.finalLen.getD s.driver.state.len)
      (min s.driver.state.len s.driver.state.buf.length) := by
  rw [readable, h]

theorem write_backed_iff {s : ResourceCore} (h : Invariant s) (hb : Backed s) {offset : ℕ}
    {data : List UInt8} {granted : Bool} (ha : Accepts s offset data granted) :
    Backed (written s offset data) ↔
      ∀ v, s.driver.committed = some v → offset + data.length ≤ v.length := by
  have hpos : 0 < data.length := List.length_pos_iff.mpr ha.nonempty
  have hc : (written s offset data).gate.committed = false := ha.active
  have hmem (x : ℕ) : x ∈ (written s offset data).available ↔
      (offset ≤ x ∧ x < offset + data.length) ∨ x ∈ s.available := RangeSet.mem_insert
  constructor
  · intro hw v hv
    have hlast := hw.available (offset + data.length - 1) ((hmem _).mpr (Or.inl (by omega)))
    have hread : readable (written s offset data) = v.length := readable_of_snapshot hv
    omega
  · intro hfit
    refine ⟨?_, fun hcommitted => absurd (hc.symm.trans hcommitted) (by decide)⟩
    intro x hx
    have hold (hx : x ∈ s.available) : x < readable s := hb.available x hx
    cases hs : s.driver.committed with
    | some v =>
      have hread : readable (written s offset data) = v.length := readable_of_snapshot hs
      have hread' : readable s = v.length := readable_of_snapshot hs
      have := hfit v hs
      rcases (hmem x).mp hx with hx | hx
      · omega
      · have := hold hx
        omega
    | none =>
      obtain ⟨hfinal, hlen⟩ := h.active ha.active
      obtain ⟨hfinal', hlen'⟩ := (written_preserves_invariant h ha).active hc
      have hread := readable_of_working (s := written s offset data) hs
      have hread' := readable_of_working hs
      have hgrow : (written s offset data).driver.state.len =
          max s.driver.state.len (offset + data.length) := rfl
      rw [hfinal', Option.getD_none] at hread
      rw [hfinal, Option.getD_none] at hread'
      rcases (hmem x).mp hx with hx | hx
      · omega
      · have := hold hx
        omega

theorem commit_backed_iff {s : ResourceCore} (h : Invariant s) (hb : Backed s) {n : ℕ}
    (hn : n ≤ s.driver.storageLen) :
    Backed ({ s with driver := s.driver.commit (some n) }.publishCommit (some n)) ↔
      StepBacked s (.commit n) := by
  have hmem (x : ℕ) : x ∈ ({ s with driver := s.driver.commit (some n) }.publishCommit
      (some n)).available ↔ x < n ∨ x ∈ s.available := mem_publish
  have hlen : n ≤ s.driver.state.len := hn
  rcases commit_driver (d := s.driver) (n := n) with ⟨hgt, hd⟩ | ⟨hle, hstate, hcommitted⟩
  · -- a released buffer: the published snapshot holds every byte written
    obtain ⟨v, hs, hv⟩ := released_snapshot h (by omega)
    have hread : readable ({ s with driver := s.driver.commit (some n) }.publishCommit
        (some n)) = v.length := readable_of_snapshot (by simp [ResourceCore.publishCommit, hd, hs])
    have hread' : readable s = v.length := readable_of_snapshot hs
    refine iff_of_true ?_ (fun hbuf => absurd hbuf (by omega))
    constructor
    · intro x hx
      rcases (hmem x).mp hx with hx | hx
      · omega
      · have := hb.available x hx
        omega
    · intro _ k hk
      obtain rfl : n = k := Option.some.inj hk
      omega
  · have hmin : min n s.driver.state.len = n := min_eq_left hlen
    rw [hmin] at hle hstate hcommitted
    have hread : readable ({ s with driver := s.driver.commit (some n) }.publishCommit
        (some n)) = n := by
      by_cases hz : n = 0
      · rw [if_pos hz] at hcommitted
        rw [readable_of_working hcommitted]
        show min n (min (s.driver.commit (some n)).state.len _) = n
        omega
      · rw [if_neg hz] at hcommitted
        rw [readable_of_snapshot hcommitted, List.length_take]
        omega
    constructor
    · intro hback _ x hx
      have := hback.available x ((hmem x).mpr (Or.inr hx))
      omega
    · intro hfit
      constructor
      · intro x hx
        rw [hread]
        exact ((hmem x).mp hx).elim id (hfit hle x)
      · intro _ k hk
        obtain rfl : n = k := Option.some.inj hk
        exact hread.ge

theorem reactivate_backed {s : ResourceCore} (h : Invariant s) (hb : Backed s) (granted : Bool) :
    Backed (next s (.reactivate granted)) := by
  rcases next_reactivate h granted with hn | ⟨havailable, hcommitted, hgate, _, _, hstate⟩
  · rw [hn]
    exact hb
  · refine ⟨?_, fun hc => ?_⟩
    · intro x hx
      rw [havailable] at hx
      have hold := hb.available x hx
      cases hs : s.driver.committed with
      | some v =>
        rw [readable_of_snapshot hs] at hold
        rw [readable_of_snapshot (hcommitted.trans hs)]
        exact hold
      | none =>
        rw [hs] at hstate
        rw [readable_of_working hs] at hold
        rw [readable_of_working (hcommitted.trans hs), hgate, hstate, Option.getD_none]
        omega
    · rw [hgate] at hc
      contradiction

theorem backed_step (s : ResourceCore) (a : Action) (h : Invariant s) (hp : NeverOverPromises s)
    (he : boundedResource.Enabled s a) : NeverOverPromises (next s a) ↔ StepBacked s a := by
  have hb := (neverOverPromises_iff h).mp hp
  rw [neverOverPromises_iff (step_preserves_invariant s a h)]
  cases a with
  | write offset data granted =>
    rcases next_write h offset data granted with ⟨ha, hn⟩ | ⟨ha, hn⟩
    · rw [hn, write_backed_iff h hb ha]
      exact ⟨fun hfit _ => hfit, fun hfit => hfit ha⟩
    · rw [hn]
      exact iff_of_true hb (fun hyes => absurd hyes ha)
  | commit n =>
    rw [next_commit h]
    exact commit_backed_iff h hb (he n rfl)
  | reactivate granted => exact iff_of_true (reactivate_backed h hb granted) trivial

theorem initial_backed {data : Option (List UInt8)} {capacity : ℕ} {granted : Bool}
    {s : ResourceCore} (h : ResourceCore.openWith data capacity granted = .ok s) : Backed s := by
  cases data with
  | none =>
    simp only [ResourceCore.openWith] at h
    split at h
    · contradiction
    · obtain rfl := Except.ok.inj h
      exact ⟨fun x hx => absurd hx (RangeSet.not_mem_empty x), by simp⟩
  | some v =>
    simp only [ResourceCore.openWith] at h
    split at h
    · contradiction
    · obtain rfl := Except.ok.inj h
      cases v with
      | nil => exact ⟨fun x hx => absurd hx (RangeSet.not_mem_empty x), by simp⟩
      | cons b bs =>
        refine ⟨?_, ?_⟩
        · intro x hx
          rcases RangeSet.mem_insert.mp hx with hx | hx
          · exact hx.2
          · exact absurd hx (RangeSet.not_mem_empty x)
        · intro _ n hn
          obtain rfl : (b :: bs).length = n := Option.some.inj hn
          exact le_rfl

/-- On every run that commits no more than the bytes written, availability never over-promises
exactly when every step is backed. -/
theorem never_over_promises_iff_steps_backed {data : Option (List UInt8)} {capacity : ℕ}
    {granted : Bool} {s : ResourceCore}
    (h : ResourceCore.openWith data capacity granted = .ok s) (actions : List Action)
    (hv : boundedResource.ValidTrace s actions) :
    boundedResource.Throughout NeverOverPromises s actions ↔
      boundedResource.Along StepBacked s actions :=
  throughout_iff_along (J := Invariant) (fun s a hi _ => step_preserves_invariant s a hi)
    backed_step (initial_invariant h)
    ((neverOverPromises_iff (initial_invariant h)).mpr (initial_backed h)) hv

theorem never_over_promises_rewrite : boundedResource.Throughout NeverOverPromises fresh
    [.write 0 [1, 2] true, .commit 2, .reactivate true, .write 0 [3, 4] true] := by
  refine (never_over_promises_iff_steps_backed fresh_opened _ ?_).mpr ?_
  · refine ⟨?_, ?_, ?_, ?_, trivial⟩
    · intro n hn
      contradiction
    · intro n hn
      obtain rfl : 2 = n := Action.commit.inj hn
      decide
    · intro n hn
      contradiction
    · intro n hn
      contradiction
  · refine ⟨?_, ?_, trivial, ?_, trivial⟩
    · intro _ v hv
      contradiction
    · intro _ x hx
      rcases RangeSet.mem_insert.mp hx with hx | hx
      · exact hx.2
      · exact absurd hx (RangeSet.not_mem_empty x)
    · intro _ v hv
      obtain rfl : [1, 2] = v := Option.some.inj hv
      decide

/-- A re-download growing past the published snapshot promises bytes a read does not reach. -/
theorem growing_rewrite_over_promises : ¬ boundedResource.Throughout NeverOverPromises fresh
    [.write 0 [1, 2] true, .commit 2, .reactivate true, .write 2 [3, 4] true] := by
  rintro ⟨_, _, _, _, h⟩
  obtain ⟨bytes, hread, hpos⟩ := (h 2 4 (by decide)).1 (by decide)
  have hnone : bytes = [] := Except.ok.inj (hread.symm.trans (by decide))
  rw [hnone] at hpos
  exact absurd hpos (by decide)

end StoragePromises

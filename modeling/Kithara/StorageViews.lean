import Kithara.StorageMemory

/-! The read-side views of an in-memory resource: when they agree on a committed length, and
when an answered range is backed by bytes. Availability only grows, so both come down to what
each commit and each write over a published snapshot finds. -/
namespace StorageViews

open RangeRuns TransitionSystem StorageMemory

theorem initial_invariant {data : Option (List UInt8)} {capacity : ℕ} {granted : Bool}
    {s : ResourceCore} (h : ResourceCore.openWith data capacity granted = .ok s) : Invariant s := by
  cases data with
  | none =>
    simp only [ResourceCore.openWith] at h
    split at h
    · contradiction
    · obtain rfl := Except.ok.inj h
      exact ⟨rfl, rfl, rfl, fun _ => ⟨rfl, Nat.zero_le _⟩, by simp, by simp, Or.inl (Nat.zero_le _)⟩
  | some v =>
    simp only [ResourceCore.openWith] at h
    split at h
    · contradiction
    · obtain rfl := Except.ok.inj h
      cases v with
      | nil => exact ⟨rfl, rfl, rfl, by simp, by simp, by simp, Or.inl le_rfl⟩
      | cons b bs =>
        refine ⟨rfl, rfl, rfl, by simp, ?_, by simp, Or.inl le_rfl⟩
        intro w hw
        obtain rfl : b :: bs = w := by simpa using hw
        refine ⟨by simp, fun x hx => ?_⟩
        exact RangeSet.mem_insert.mpr (Or.inl ⟨Nat.zero_le x, hx⟩)

theorem commit_driver {d : MemDriver} {n : ℕ} :
    (min n d.state.len > d.state.buf.length ∧ d.commit (some n) = d) ∨
      (min n d.state.len ≤ d.state.buf.length ∧ (d.commit (some n)).state = ⟨[], min n d.state.len⟩ ∧
        (d.commit (some n)).committed =
          if min n d.state.len = 0 then none else some (d.state.buf.take (min n d.state.len))) := by
  simp only [MemDriver.commit, Option.getD_some]
  split
  · next hgt => exact Or.inl ⟨hgt, rfl⟩
  · next hle => exact Or.inr ⟨by omega, rfl, rfl⟩

theorem commit_preserves_invariant {s : ResourceCore} (h : Invariant s) (n : ℕ) :
    Invariant ({ s with driver := s.driver.commit (some n) }.publishCommit (some n)) := by
  rcases commit_driver (d := s.driver) (n := n) with ⟨hgt, hd⟩ | ⟨hle, hstate, hcommitted⟩
  · -- an active buffer holds all written bytes, so only a released one is too short
    have hc : s.gate.committed = true := by
      by_contra hne
      have := (h.active (by simpa using hne)).2
      omega
    refine ⟨h.uncancelled, h.unfailed, rfl, by simp [ResourceCore.publishCommit], ?_, ?_, ?_⟩
    · intro v hv
      obtain ⟨hpos, hcov⟩ := h.published v (by simpa [ResourceCore.publishCommit, hd] using hv)
      exact ⟨hpos, fun x hx => mem_publish.mpr (Or.inr (hcov x hx))⟩
    · intro _
      simpa [ResourceCore.publishCommit, hd] using h.snapshot hc
    · simpa [ResourceCore.publishCommit, hd] using h.working
  · refine ⟨h.uncancelled, h.unfailed, rfl, by simp [ResourceCore.publishCommit], ?_, ?_, ?_⟩
    · intro v hv
      have hv : (s.driver.commit (some n)).committed = some v := hv
      rw [hcommitted] at hv
      split at hv
      · contradiction
      · next hne =>
        obtain rfl := Option.some.inj hv
        rw [List.length_take]
        refine ⟨by omega, fun x hx => mem_publish.mpr (Or.inl ?_)⟩
        omega
    · intro _
      show (s.driver.commit (some n)).state.len = _
      simp only [ResourceCore.publishCommit, hstate, hcommitted]
      split
      · next hz => exact hz
      · simp only [Option.getD_some, List.length_take]
        omega
    · right
      show (s.driver.commit (some n)).state.buf.length = 0
      rw [hstate]
      rfl

theorem written_preserves_invariant {s : ResourceCore} (h : Invariant s) {offset : ℕ}
    {data : List UInt8} {granted : Bool} (ha : Accepts s offset data granted) :
    Invariant (written s offset data) := by
  obtain ⟨hfinal, hlen⟩ := h.active ha.active
  have hc := ha.active
  have hbuf : (written s offset data).driver.state.len ≤
      (written s offset data).driver.state.buf.length := by
    simp only [written, List.length_append, List.length_take, List.length_drop, ensureLen_length]
    omega
  refine ⟨h.uncancelled, h.unfailed, h.flags, fun _ => ⟨hfinal, hbuf⟩, ?_, ?_, Or.inl hbuf⟩
  · intro v hv
    obtain ⟨hpos, hcov⟩ := h.published v hv
    exact ⟨hpos, fun x hx => RangeSet.mem_insert.mpr (Or.inr (hcov x hx))⟩
  · intro hcommitted
    exact absurd (hc.symm.trans hcommitted) (by decide)

theorem reactivated_preserves_invariant {s t : ResourceCore} (h : Invariant s)
    (havailable : t.available = s.available) (hcommitted : t.driver.committed = s.driver.committed)
    (hgate : t.gate = ⟨none, none, false⟩) (hflag : t.committed = false)
    (hcancelled : t.cancelled = false)
    (hstate : match s.driver.committed with
      | none => t.driver.state = s.driver.state
      | some v => t.driver.state.len = v.length ∧ v.length ≤ t.driver.state.buf.length) :
    Invariant t := by
  have hlen : t.driver.state.len ≤ t.driver.state.buf.length := by
    cases hs : s.driver.committed with
    | none =>
      rw [hs] at hstate
      rw [hstate]
      rcases h.working with hw | hw
      · exact hw
      · cases hc : s.gate.committed with
        | true =>
          have := h.snapshot hc
          rw [hs] at this
          simp at this
          omega
        | false => exact (h.active hc).2
    | some v =>
      rw [hs] at hstate
      omega
  refine ⟨hcancelled, by rw [hgate], by rw [hflag, hgate], ?_, ?_, ?_, Or.inl hlen⟩
  · intro _
    exact ⟨by rw [hgate], hlen⟩
  · intro v hv
    rw [hcommitted] at hv
    rw [havailable]
    exact h.published v hv
  · intro hc
    rw [hgate] at hc
    contradiction

theorem step_preserves_invariant (s : ResourceCore) (a : Action) (h : Invariant s) :
    Invariant (next s a) := by
  cases a with
  | write offset data granted =>
    rcases next_write h offset data granted with ⟨ha, hn⟩ | ⟨_, hn⟩
    · rw [hn]
      exact written_preserves_invariant h ha
    · rw [hn]
      exact h
  | commit n =>
    rw [next_commit h]
    exact commit_preserves_invariant h n
  | reactivate granted =>
    rcases next_reactivate h granted with hn | ⟨h1, h2, h3, h4, h5, h6⟩
    · rw [hn]
      exact h
    · exact reactivated_preserves_invariant h h1 h2 h3 h4 h5 h6

/-- How far a read reaches: the snapshot while one is published, else the working bytes. -/
def readable (s : ResourceCore) : ℕ :=
  match s.driver.committed with
  | some v => v.length
  | none => min (s.gate.finalLen.getD s.driver.state.len)
      (min s.driver.state.len s.driver.state.buf.length)

theorem readAt_length {s : ResourceCore} (h : Invariant s) (a size : ℕ) :
    ∃ bytes, s.readAt a size = .ok bytes ∧ bytes.length = min size (readable s - a) := by
  have hhealth : s.checkHealth = none := by
    simp [ResourceCore.checkHealth, h.uncancelled, h.unfailed]
  simp only [ResourceCore.readAt, readable]
  by_cases hz : size = 0
  · exact ⟨[], by simp [hz], by simp [hz]⟩
  rw [if_neg hz]
  cases hs : s.driver.committed with
  | some v =>
    simp only [MemDriver.committedLen, hs, Option.map_some, h.uncancelled]
    by_cases hge : a ≥ v.length
    · refine ⟨[], by simp [hge], ?_⟩
      rw [List.length_nil]
      omega
    · refine ⟨readSlice v a (min size (v.length - a)), ?_, ?_⟩
      · simp [hge, MemDriver.readCommitted, hs]
      · rw [readSlice_length]
        omega
  | none =>
    have hstorage : s.driver.storageLen = s.driver.state.len := rfl
    simp only [MemDriver.committedLen, hs, Option.map_none, hhealth]
    by_cases hge : a ≥ min (s.gate.finalLen.getD s.driver.storageLen) s.driver.storageLen
    · refine ⟨[], by rw [if_pos hge], ?_⟩
      rw [List.length_nil]
      rw [hstorage] at hge
      omega
    · refine ⟨_, by rw [if_neg hge], ?_⟩
      rw [hstorage] at hge ⊢
      simp only [MemDriver.readAt]
      simp only [hs]
      split
      · have hmin : min (min (s.gate.finalLen.getD s.driver.state.len) s.driver.state.len)
            (min (min s.driver.state.len s.driver.state.buf.length) s.driver.state.buf.length) =
            min (s.gate.finalLen.getD s.driver.state.len)
              (min s.driver.state.len s.driver.state.buf.length) := by
          omega
        rw [List.length_take, List.length_drop, min_assoc, min_assoc, Nat.sub_min_sub_right,
          Nat.sub_min_sub_right, hmin]
      · rw [List.length_nil]
        omega

structure Agree (s : ResourceCore) (n : ℕ) : Prop where
  contains : ∀ a b, a < b → (s.containsRange a b = true ↔ b ≤ n)
  wait : ∀ a b, a < b → s.waitRange a b = .ok (some (if n ≤ a then .eof else .ready))
  gap : ∀ start limit, s.nextGap start limit = none
  len : s.len = some n
  read : ∀ a b, a < b → ∃ bytes, s.readAt a (b - a) = .ok bytes ∧ bytes.length = min b n - a

/-- Whenever committed with a final length within the bytes written, the views agree on it. -/
def ViewsAgree (s : ResourceCore) : Prop :=
  s.gate.committed = true → ∀ n, s.gate.finalLen = some n → n ≤ s.driver.storageLen → Agree s n

/-- A commit within the bytes written finds no byte available at or past its length. -/
def CommitFits (s : ResourceCore) : Action → Prop
  | .commit n => n ≤ s.driver.storageLen → ∀ x ∈ s.available, x < n
  | _ => True

/-- Committed at `n` with the published bytes and the availability ending exactly there. -/
structure Exact (s : ResourceCore) (n : ℕ) : Prop where
  committed : s.gate.committed = true
  finalLen : s.gate.finalLen = some n
  snapshot : (s.driver.committed.getD []).length = n
  available : ∀ x, x ∈ s.available ↔ x < n

section Exact

variable {s : ResourceCore} {n : ℕ} (e : Exact s n)
include e

theorem Exact.covered {a b : ℕ} (hab : a < b) :
    rangeCoveredBy s.available a b = true ↔ b ≤ n := by
  rw [rangeCoveredBy_iff]
  constructor
  · intro hall
    have := (e.available (b - 1)).mp (hall (b - 1) (by omega) (by omega))
    omega
  · intro hb x _ hx
    exact (e.available x).mpr (by omega)

theorem Exact.snapshot_length {v : List UInt8} (hs : s.driver.committed = some v) :
    v.length = n := by
  simpa [hs] using e.snapshot

theorem Exact.readable (h : Invariant s) : readable s = n := by
  have hlen : s.driver.state.len = n := by rw [h.snapshot e.committed, e.snapshot]
  simp only [StorageViews.readable]
  cases hs : s.driver.committed with
  | some v => exact e.snapshot_length hs
  | none =>
    have hz : n = 0 := by simpa [hs] using e.snapshot.symm
    simp only [e.finalLen, Option.getD_some]
    omega

theorem Exact.contains {a b : ℕ} (hab : a < b) : s.containsRange a b = true ↔ b ≤ n := by
  simp only [ResourceCore.containsRange]
  rw [if_neg (by omega)]
  cases hs : s.driver.committed with
  | some v => simp [MemDriver.committedLen, hs, e.snapshot_length hs]
  | none =>
    simp only [MemDriver.committedLen, hs, Option.map_none]
    exact e.covered hab

theorem Exact.wait (h : Invariant s) {a b : ℕ} (hab : a < b) :
    s.waitRange a b = .ok (some (if n ≤ a then .eof else .ready)) := by
  simp only [ResourceCore.waitRange]
  rw [if_neg (by omega), if_neg (by omega)]
  simp only [h.uncancelled, h.unfailed, e.committed, e.finalLen, Option.getD_some]
  by_cases ha : n ≤ a
  · have hno : ¬ rangeCoveredBy s.available a b = true := by
      rw [e.covered hab]
      omega
    simp [hno, ha]
  · by_cases hcov : rangeCoveredBy s.available a b = true
    · simp [hcov, ha]
    · simp [hcov, ha]

theorem Exact.gap (start limit : ℕ) : s.nextGap start limit = none := by
  simp only [ResourceCore.nextGap, e.finalLen, Option.getD_some]
  split
  · rfl
  · have hgaps : s.available.gaps start (min limit n) = [] := by
      rw [RangeSet.gaps_eq_nil]
      intro x _ hx
      exact (e.available x).mpr (by omega)
    rw [hgaps]
    rfl

theorem Exact.len (h : Invariant s) : s.len = some n := by
  simp only [ResourceCore.len]
  rw [h.flags, e.committed, if_pos rfl]
  cases hs : s.driver.committed with
  | some v => simp [MemDriver.committedLen, hs, e.snapshot_length hs]
  | none => simp [MemDriver.committedLen, hs, e.finalLen]

theorem Exact.read (h : Invariant s) {a b : ℕ} (hab : a < b) :
    ∃ bytes, s.readAt a (b - a) = .ok bytes ∧ bytes.length = min b n - a := by
  obtain ⟨bytes, hbytes, hsize⟩ := readAt_length h a (b - a)
  refine ⟨bytes, hbytes, ?_⟩
  rw [hsize, e.readable h]
  omega

theorem agree_of_exact (h : Invariant s) : Agree s n where
  contains := fun _ _ hab => e.contains hab
  wait := fun _ _ hab => e.wait h hab
  gap := e.gap
  len := e.len h
  read := fun _ _ hab => e.read h hab

end Exact

theorem available_lt_of_agree {s : ResourceCore} (h : Invariant s) {n : ℕ} (ha : Agree s n) :
    ∀ x ∈ s.available, x < n := by
  intro x hx
  by_contra hge
  have hwait := ha.wait x (x + 1) (by omega)
  have hcov : rangeCoveredBy s.available x (x + 1) = true := by
    rw [rangeCoveredBy_iff]
    intro y h1 h2
    obtain rfl : y = x := by omega
    exact hx
  rw [if_pos (by omega)] at hwait
  simp [ResourceCore.waitRange, h.uncancelled, h.unfailed, hcov] at hwait

/-- A buffer shorter than the bytes written was released by a commit that published them all. -/
theorem released_snapshot {s : ResourceCore} (h : Invariant s)
    (hshort : s.driver.state.buf.length < s.driver.state.len) :
    ∃ v, s.driver.committed = some v ∧ v.length = s.driver.state.len := by
  have hc : s.gate.committed = true := by
    by_contra hne
    have := (h.active (by simpa using hne)).2
    omega
  have hlen := h.snapshot hc
  cases hs : s.driver.committed with
  | none =>
    rw [hs, Option.getD_none, List.length_nil] at hlen
    omega
  | some v =>
    rw [hs, Option.getD_some] at hlen
    exact ⟨v, rfl, hlen.symm⟩

theorem commit_snapshot_length {s : ResourceCore} (h : Invariant s) {n : ℕ}
    (hn : n ≤ s.driver.storageLen) (hfits : ∀ x ∈ s.available, x < n) :
    ((s.driver.commit (some n)).committed.getD []).length = n := by
  have hn : n ≤ s.driver.state.len := hn
  rcases commit_driver (d := s.driver) (n := n) with ⟨hgt, hd⟩ | ⟨_, _, hcommitted⟩
  · obtain ⟨v, hs, hlen⟩ := released_snapshot h (by omega)
    obtain ⟨hpos, hcov⟩ := h.published v hs
    have := hfits (v.length - 1) (hcov _ (by omega))
    rw [hd, hs, Option.getD_some]
    omega
  · rw [hcommitted]
    split
    · next hz =>
      simp only [Option.getD_none, List.length_nil]
      omega
    · simp only [Option.getD_some, List.length_take]
      omega

theorem commit_agree_iff {s : ResourceCore} (h : Invariant s) (n : ℕ) :
    ViewsAgree (next s (.commit n)) ↔ CommitFits s (.commit n) := by
  have hinv := step_preserves_invariant s (.commit n) h
  rw [next_commit h] at hinv ⊢
  have hmem (x : ℕ) : x ∈ ({ s with driver := s.driver.commit (some n) }.publishCommit
      (some n)).available ↔ x < n ∨ x ∈ s.available := mem_publish
  have hwithin : n ≤ (s.driver.commit (some n)).state.len ↔ n ≤ s.driver.state.len := by
    rcases commit_driver (d := s.driver) (n := n) with ⟨_, hd⟩ | ⟨_, hstate, _⟩
    · rw [hd]
    · rw [hstate]
      simp
  constructor
  · intro hviews hn x hx
    have hagree := hviews rfl n rfl (hwithin.mpr hn)
    exact available_lt_of_agree hinv hagree x ((hmem x).mpr (Or.inr hx))
  · intro hfits _ k hk hle
    obtain rfl : n = k := Option.some.inj hk
    have hn := hwithin.mp hle
    refine agree_of_exact ⟨rfl, rfl, commit_snapshot_length h hn (hfits hn), ?_⟩ hinv
    intro x
    rw [hmem]
    exact ⟨fun hx => hx.elim id (hfits hn x), Or.inl⟩

theorem initial_viewsAgree {data : Option (List UInt8)} {capacity : ℕ} {granted : Bool}
    {s : ResourceCore} (h : ResourceCore.openWith data capacity granted = .ok s) :
    ViewsAgree s := by
  have hinv := initial_invariant h
  intro hc n hf _
  cases data with
  | none =>
    simp only [ResourceCore.openWith] at h
    split at h
    · contradiction
    · obtain rfl := Except.ok.inj h
      contradiction
  | some v =>
    simp only [ResourceCore.openWith] at h
    split at h
    · contradiction
    · obtain rfl := Except.ok.inj h
      obtain rfl : v.length = n := Option.some.inj hf
      refine agree_of_exact ⟨rfl, rfl, ?_, ?_⟩ hinv
      · cases v <;> simp
      · intro x
        rw [RangeSet.mem_insert]
        simp

theorem viewsAgree_step (s : ResourceCore) (a : Action) (h : Invariant s) (hp : ViewsAgree s) :
    ViewsAgree (next s a) ↔ CommitFits s a := by
  cases a with
  | write offset data granted =>
    refine iff_of_true ?_ trivial
    rcases next_write h offset data granted with ⟨ha, hn⟩ | ⟨_, hn⟩
    · rw [hn]
      intro hc
      exact absurd (ha.active.symm.trans hc) (by decide)
    · rw [hn]
      exact hp
  | commit n => exact commit_agree_iff h n
  | reactivate granted =>
    refine iff_of_true ?_ trivial
    rcases next_reactivate h granted with hn | ⟨_, _, hgate, _⟩
    · rw [hn]
      exact hp
    · intro hc
      rw [hgate] at hc
      contradiction

/-- On every run from any opening, the views agree at every point exactly when no commit within
the bytes written leaves a byte available at or past its final length. -/
theorem views_agree_iff_commits_fit {data : Option (List UInt8)} {capacity : ℕ} {granted : Bool}
    {s : ResourceCore} (h : ResourceCore.openWith data capacity granted = .ok s)
    (actions : List Action) :
    resource.Throughout ViewsAgree s actions ↔ resource.Along CommitFits s actions :=
  throughout_iff_along (J := Invariant) (fun s a hi _ => step_preserves_invariant s a hi)
    (fun s a hi hp _ => viewsAgree_step s a hi hp) (initial_invariant h) (initial_viewsAgree h)
    (valid_of_unguarded (fun _ _ => trivial) _ _)

def fresh : ResourceCore where
  available := RangeSet.empty
  committed := false
  cancelled := false
  gate := { failed := none, finalLen := none, committed := false }
  driver := { committed := none, state := { buf := [], len := 0 } }

theorem fresh_opened : ResourceCore.openWith none 0 true = .ok fresh := rfl

theorem views_agree_full_commit : resource.Throughout ViewsAgree fresh
    [.write 0 [1, 2] true, .commit 2] := by
  refine (views_agree_iff_commits_fit fresh_opened _).mpr ⟨trivial, fun _ x hx => ?_, trivial⟩
  rcases RangeSet.mem_insert.mp hx with h | h
  · exact h.2
  · exact absurd h (RangeSet.not_mem_empty x)

/-- Ten bytes committed as five: the sixth is still promised. -/
theorem shrinking_commit_disagrees : ¬ resource.Throughout ViewsAgree fresh
    [.write 0 (List.replicate 10 0) true, .commit 5] := by
  rintro ⟨_, _, h⟩
  have hwait := (h rfl 5 rfl (by decide)).wait 6 8 (by decide)
  revert hwait
  decide

end StorageViews

import Kithara.KeyedSums
import Mathlib.Data.List.Sort

/-! Asset roots by their last touch, with the bytes recorded for each, and the roots to evict so
that what is left keeps to its limits. -/
namespace LruTable

open KeyedSums

def word : ℕ := 2 ^ 64

structure LruEntry where
  bytes : Option ℕ
  lastTouch : ℕ
  deriving DecidableEq

def LruEntry.size (entry : LruEntry) : ℕ := entry.bytes.getD 0

structure EvictConfig where
  maxAssets : Option ℕ
  maxBytes : Option ℕ

def EvictConfig.within (cfg : EvictConfig) (assets bytes : ℕ) : Bool :=
  (cfg.maxAssets.all fun max => assets ≤ max) && cfg.maxBytes.all fun max => bytes ≤ max

variable {Root : Type*} [DecidableEq Root]

abbrev Entry (Root : Type*) := Sigma fun _ : Root => LruEntry

/-- The oldest candidates, until what is left keeps to its limits. -/
def scan (cfg : EvictConfig) : ℕ → ℕ → List (Entry Root) → List Root
  | _, _, [] => []
  | assets, bytes, e :: rest =>
    let assets := assets - 1
    let bytes := bytes - e.2.size
    e.1 :: if cfg.within assets bytes then [] else scan cfg assets bytes rest

variable (Root) in
structure LruState where
  byRoot : Table Root LruEntry
  clock : ℕ

namespace LruState

def new : LruState Root := ⟨∅, 0⟩

def totalBytes (s : LruState Root) : ℕ :=
  (s.byRoot.entries.filterMap fun e => e.2.bytes).sum % word

/-- Candidates in the order of their last touch; `order` is how the map is iterated. -/
def evictionCandidates (s : LruState Root) (order : List (Entry Root)) (cfg : EvictConfig)
    (pinned : List Root) : List Root :=
  if cfg.maxAssets.isNone && cfg.maxBytes.isNone then []
  else if cfg.within s.byRoot.entries.length s.totalBytes then []
  else scan cfg s.byRoot.entries.length s.totalBytes
    ((order.insertionSort fun a b => a.2.lastTouch ≤ b.2.lastTouch).filter fun e =>
      e.1 ∉ pinned)

def touch (s : LruState Root) (root : Root) (bytesHint : Option ℕ) : LruState Root × Bool :=
  let clock := min (s.clock + 1) (word - 1)
  match s.byRoot.lookup root with
  | some entry =>
    ({ byRoot := s.byRoot.insert root
        { bytes := if bytesHint.isSome then bytesHint else entry.bytes, lastTouch := clock }
       clock := clock }, false)
  | none =>
    ({ byRoot := s.byRoot.insert root { bytes := bytesHint, lastTouch := clock }
       clock := clock }, true)

/-- The state after the bytes of an entry changed, and whether they did. -/
def updateBytes (s : LruState Root) (root : Root) (bytes : ℕ) : LruState Root × Bool :=
  match s.byRoot.lookup root with
  | none => (s, false)
  | some entry => if entry.bytes = some bytes then (s, false)
    else ({ s with byRoot := s.byRoot.insert root { entry with bytes := some bytes } }, true)

def remove (s : LruState Root) (root : Root) : LruState Root × Bool :=
  ({ s with byRoot := s.byRoot.erase root }, (s.byRoot.lookup root).isSome)

/-- The bytes recorded for all roots, without the limit of a word. -/
def recorded (s : LruState Root) : ℕ := sumOn (fun _ => true) LruEntry.size s.byRoot

end LruState

variable {s : LruState Root} {root root' : Root} {cfg : EvictConfig}

omit [DecidableEq Root] in
theorem recorded_eq (s : LruState Root) :
    (s.byRoot.entries.filterMap fun e => e.2.bytes).sum = s.recorded := by
  rw [LruState.recorded, sumOn, List.filter_true]
  induction s.byRoot.entries with
  | nil => rfl
  | cons e rest ih =>
    cases hbytes : e.2.bytes with
    | none => simp [hbytes, ih, LruEntry.size]
    | some bytes => simp [hbytes, ih, LruEntry.size]

omit [DecidableEq Root] in
theorem totalBytes_eq (h : s.recorded < word) : s.totalBytes = s.recorded := by
  rw [LruState.totalBytes, recorded_eq, Nat.mod_eq_of_lt h]

theorem touch_lookup (s : LruState Root) (root root' : Root) :
    ((s.touch root none).1.byRoot.lookup root').map LruEntry.bytes =
      if root' = root then some ((s.byRoot.lookup root).bind LruEntry.bytes)
      else (s.byRoot.lookup root').map LruEntry.bytes := by
  cases hlookup : s.byRoot.lookup root with
  | none =>
    by_cases h : root' = root
    · subst h
      simp [LruState.touch, hlookup]
    · simp [LruState.touch, hlookup, h, AList.lookup_insert_ne h]
  | some entry =>
    by_cases h : root' = root
    · subst h
      simp [LruState.touch, hlookup]
    · simp [LruState.touch, hlookup, h, AList.lookup_insert_ne h]

theorem updateBytes_lookup (s : LruState Root) (root root' : Root) (bytes : ℕ) :
    ((s.updateBytes root bytes).1.byRoot.lookup root').map LruEntry.bytes =
      if root' = root ∧ root ∈ s.byRoot then some (some bytes)
      else (s.byRoot.lookup root').map LruEntry.bytes := by
  cases hlookup : s.byRoot.lookup root with
  | none =>
    have hnot : root ∉ s.byRoot := AList.lookup_eq_none.mp hlookup
    simp [LruState.updateBytes, hlookup, hnot]
  | some entry =>
    have hmem : root ∈ s.byRoot := AList.lookup_isSome.mp (by rw [hlookup]; rfl)
    by_cases h : root' = root
    · subst h
      by_cases hsame : entry.bytes = some bytes
      · simp [LruState.updateBytes, hlookup, hsame, hmem]
      · simp [LruState.updateBytes, hlookup, hsame, hmem]
    · by_cases hsame : entry.bytes = some bytes
      · simp [LruState.updateBytes, hlookup, hsame, h]
      · simp [LruState.updateBytes, hlookup, hsame, h, AList.lookup_insert_ne h]

omit [DecidableEq Root] in
theorem scan_spec (cfg : EvictConfig) (assets bytes : ℕ) (l : List (Entry Root)) :
    ∃ k, scan cfg assets bytes l = (l.take k).map Sigma.fst ∧
      (l.take k = l ∨ ∃ assets', cfg.within assets'
        (bytes - ((l.take k).map fun e => e.2.size).sum) = true) := by
  induction l generalizing assets bytes with
  | nil => exact ⟨0, rfl, .inl rfl⟩
  | cons e rest ih =>
    by_cases hdone : cfg.within (assets - 1) (bytes - e.2.size) = true
    · refine ⟨1, ?_, .inr ⟨assets - 1, ?_⟩⟩
      · simp [scan, hdone]
      · simpa using hdone
    · obtain ⟨k, hscan, hleft⟩ := ih (assets - 1) (bytes - e.2.size)
      refine ⟨k + 1, ?_, ?_⟩
      · simp [scan, hdone, hscan]
      · rw [List.take_succ_cons]
        rcases hleft with hall | ⟨assets', hwithin⟩
        · exact .inl (by rw [hall])
        · refine .inr ⟨assets', ?_⟩
          rw [List.map_cons, List.sum_cons, ← Nat.sub_sub]
          exact hwithin

theorem within_bytes {assets bytes max : ℕ} (h : cfg.within assets bytes = true)
    (hmax : cfg.maxBytes = some max) : bytes ≤ max := by
  have hbytes := (Bool.and_eq_true_iff.mp h).2
  rw [hmax] at hbytes
  exact of_decide_eq_true hbytes

theorem scanned_mem {order : List (Entry Root)} (hperm : order.Perm s.byRoot.entries)
    {pinned : List Root} {e : Entry Root} :
    e ∈ ((order.insertionSort fun a b => a.2.lastTouch ≤ b.2.lastTouch).filter fun e =>
      e.1 ∉ pinned) ↔ e ∈ s.byRoot.entries ∧ e.1 ∉ pinned := by
  rw [List.mem_filter, (List.perm_insertionSort _ _).mem_iff, hperm.mem_iff, decide_eq_true_eq]

theorem scanned_nodup {order : List (Entry Root)} (hperm : order.Perm s.byRoot.entries)
    (pinned : List Root) :
    (((order.insertionSort fun a b => a.2.lastTouch ≤ b.2.lastTouch).filter fun e =>
      e.1 ∉ pinned).map Sigma.fst).Nodup := by
  have hkeys : (s.byRoot.entries.map Sigma.fst).Nodup := s.byRoot.keys_nodup
  have hsorted := ((List.perm_insertionSort (fun a b : Entry Root =>
    a.2.lastTouch ≤ b.2.lastTouch) order).trans hperm).map Sigma.fst
  exact (hsorted.nodup_iff.mpr hkeys).sublist (List.filter_sublist.map _)

theorem candidates_unpinned {order : List (Entry Root)} (hperm : order.Perm s.byRoot.entries)
    {pinned : List Root} (hroot : root ∈ s.evictionCandidates order cfg pinned) :
    root ∈ s.byRoot ∧ root ∉ pinned := by
  simp only [LruState.evictionCandidates] at hroot
  split at hroot
  · cases hroot
  · split at hroot
    · cases hroot
    · obtain ⟨k, hscan, _⟩ := scan_spec cfg s.byRoot.entries.length s.totalBytes
        ((order.insertionSort fun a b => a.2.lastTouch ≤ b.2.lastTouch).filter fun e =>
          e.1 ∉ pinned)
      rw [hscan] at hroot
      obtain ⟨e, he, rfl⟩ := List.mem_map.mp hroot
      obtain ⟨hmem, hpinned⟩ := (scanned_mem hperm).mp (List.mem_of_mem_take he)
      exact ⟨AList.mem_keys.mpr (List.mem_map_of_mem hmem), hpinned⟩

theorem sumOn_taken {taken : List (Entry Root)} (hmem : ∀ e ∈ taken, e ∈ s.byRoot.entries)
    (hnodup : (taken.map Sigma.fst).Nodup) :
    sumOn (fun root => root ∈ taken.map Sigma.fst) LruEntry.size s.byRoot =
      (taken.map fun e => e.2.size).sum := by
  rw [sumOn_mem hnodup, List.map_map]
  · congr 1
    apply List.map_congr_left
    exact fun e he => worth_of_mem (hmem e he)
  · intro root hroot
    obtain ⟨e, he, rfl⟩ := List.mem_map.mp hroot
    exact AList.mem_keys.mpr (List.mem_map_of_mem (hmem e he))

/-- Without the candidates, what is recorded keeps to the limit, or all that is left is pinned. -/
theorem candidates_enough {order : List (Entry Root)} (hperm : order.Perm s.byRoot.entries)
    (hfits : s.recorded < word) (pinned : List Root) {max : ℕ} (hmax : cfg.maxBytes = some max) :
    (∀ root ∈ s.byRoot, root ∉ pinned → root ∈ s.evictionCandidates order cfg pinned) ∨
      sumOn (fun root => !decide (root ∈ s.evictionCandidates order cfg pinned)) LruEntry.size
        s.byRoot ≤ max := by
  simp only [LruState.evictionCandidates, hmax, Option.isNone_some, Bool.and_false,
    Bool.false_eq_true, if_false]
  split
  · rename_i hwithin
    right
    have htotal := within_bytes hwithin hmax
    rw [totalBytes_eq hfits] at htotal
    exact (sumOn_le _ _ _).trans htotal
  · obtain ⟨k, hscan, hleft⟩ := scan_spec cfg s.byRoot.entries.length s.totalBytes
      ((order.insertionSort fun a b => a.2.lastTouch ≤ b.2.lastTouch).filter fun e =>
        e.1 ∉ pinned)
    rw [hscan]
    rcases hleft with hall | ⟨assets, hwithin⟩
    · left
      intro root hroot hpinned
      rw [hall]
      obtain ⟨e, he, rfl⟩ := List.mem_map.mp (AList.mem_keys.mp hroot)
      exact List.mem_map_of_mem ((scanned_mem hperm).mpr ⟨he, hpinned⟩)
    · right
      have hbytes := within_bytes hwithin hmax
      rw [totalBytes_eq hfits] at hbytes
      refine le_trans ?_ hbytes
      generalize htaken : ((order.insertionSort fun a b => a.2.lastTouch ≤ b.2.lastTouch).filter
        fun e => e.1 ∉ pinned).take k = taken
      have hmem : ∀ e ∈ taken, e ∈ s.byRoot.entries := fun e he =>
        ((scanned_mem hperm).mp (List.mem_of_mem_take (htaken ▸ he))).1
      have hnodup : (taken.map Sigma.fst).Nodup := by
        rw [← htaken]
        exact (scanned_nodup hperm pinned).sublist ((List.take_sublist _ _).map _)
      have hsplit := sumOn_add_not (fun root => decide (root ∈ taken.map Sigma.fst)) LruEntry.size
        s.byRoot
      rw [sumOn_taken hmem hnodup] at hsplit
      rw [LruState.recorded, ← hsplit, Nat.add_sub_cancel_left]

end LruTable

import Kithara.AssetCache
import Mathlib.Algebra.Order.BigOperators.Group.Finset

/-! When the evictor's table accounts for what the cache holds on disk, and the byte quota that
follows. A commit records the length of its own file as the length of the whole root, and a root
that left the table is never entered again. -/
namespace CacheQuota

open KeyedSums LruTable AssetPins AssetCache TransitionSystem

variable {Root Path : Type*} [DecidableEq Root] [DecidableEq Path]

/-- Every root that holds something on disk is in the table, with the length of all it holds. -/
def Accounted (s : State Root Path) : Prop := ∀ root, s.Holds root →
  (s.lru.byRoot.lookup root).map LruEntry.bytes = some (some (s.rootBytes root))

/-- What is on disk keeps to the quota, or nothing more of it may be evicted. -/
def WithinQuota (s : State Root Path) (max : ℕ) : Prop :=
  s.diskBytes ≤ max ∨ ∀ root, s.Holds root → root ∈ s.pins.snapshot

/-- The file is not there, or empty, or the last of its root. -/
def Spare (s : State Root Path) (root : Root) (path : Path) : Prop :=
  s.files.lookup (root, path) = none ∨ s.files.lookup (root, path) = some 0 ∨
    ∀ other, (s.files.lookup (root, other)).isSome → other = path

/-- The steps that keep the table right. A commit is of a root still in the table that holds no
other bytes; what is removed, or cleared because it was never confirmed, is spare. -/
def Bookkept (s : State Root Path) : Action Root Path → Prop
  | .commit root path _ _ _ => root ∈ s.lru.byRoot ∧ s.otherBytes root path = 0
  | .acquireResource root path _ _ => (root, path) ∈ s.confirmed ∨ Spare s root path
  | .removeResource root path => Spare s root path
  | _ => True

/-- A commit is made by a writer whose own pin holds its root. -/
def Held (s : State Root Path) : Action Root Path → Prop
  | .commit root _ _ _ _ => root ∈ s.pins.snapshot
  | _ => True

def Countable (s : State Root Path) : Action Root Path → Prop
  | .commit root path len sized _ => (s.committed root path len sized).lru.recorded < word
  | _ => True

def Quota (cfg : EvictConfig) (s : State Root Path) : Action Root Path → Prop
  | .commit root path len sized order => ∀ max, cfg.maxBytes = some max →
    WithinQuota (next cfg s (.commit root path len sized order)) max
  | _ => True

variable {s s' s'' : State Root Path} {cfg : EvictConfig} {root root' : Root} {path : Path}

structure Without (s s' : State Root Path) (roots : List Root) : Prop where
  files : ∀ key, s'.files.lookup key = if key.1 ∈ roots then none else s.files.lookup key
  lru : ∀ root, s'.lru.byRoot.lookup root =
    if root ∈ roots then none else s.lru.byRoot.lookup root
  confirmed : ∀ key, key ∈ s'.confirmed ↔ key ∈ s.confirmed ∧ key.1 ∉ roots
  pins : ∀ root, root ∉ roots → s'.pins.count root = s.pins.count root

theorem without_nil (s : State Root Path) : Without s s [] :=
  ⟨fun _ => by simp, fun _ => by simp, fun _ => by simp, fun _ _ => rfl⟩

theorem without_trans {roots roots' : List Root} (h : Without s s' roots)
    (h' : Without s' s'' roots') : Without s s'' (roots ++ roots') := by
  constructor
  · intro key
    rw [h'.files, h.files]
    by_cases hkey : key.1 ∈ roots <;> by_cases hkey' : key.1 ∈ roots' <;> simp [hkey, hkey']
  · intro root
    rw [h'.lru, h.lru]
    by_cases hroot : root ∈ roots <;> by_cases hroot' : root ∈ roots' <;> simp [hroot, hroot']
  · intro key
    rw [h'.confirmed, h.confirmed, List.mem_append, not_or, and_assoc]
  · intro root hroot
    rw [List.mem_append, not_or] at hroot
    rw [h'.pins root hroot.2, h.pins root hroot.1]

theorem deleteAsset_without (s : State Root Path) (root : Root) :
    Without s (s.deleteAsset root) [root] := by
  constructor
  · intro key
    by_cases hkey : key.1 = root
    · simp [State.deleteAsset, lookup_keep, hkey]
    · simp [State.deleteAsset, lookup_keep, hkey]
  · intro root'
    by_cases hroot : root' = root
    · subst hroot
      simp [State.deleteAsset, LruState.remove]
    · simp [State.deleteAsset, LruState.remove, hroot, AList.lookup_erase_ne hroot]
  · intro key
    simp [State.deleteAsset]
  · intro root' hroot
    rw [List.mem_singleton] at hroot
    simp [State.deleteAsset, hroot]

theorem evictAll_without (s : State Root Path) (pinned candidates : List Root) :
    Without s (s.evictAll pinned candidates) (candidates.filter fun root => root ∉ pinned) := by
  induction candidates generalizing s with
  | nil => exact without_nil s
  | cons cand candidates ih =>
    rw [State.evictAll, List.foldl_cons, ← State.evictAll]
    by_cases hpinned : cand ∈ pinned
    · rw [List.filter_cons_of_neg (by simpa using hpinned), State.evictOne, if_pos hpinned]
      exact ih s
    · rw [List.filter_cons_of_pos (by simpa using hpinned), State.evictOne, if_neg hpinned]
      exact without_trans (deleteAsset_without s cand) (ih _)

theorem holds_iff : s.Holds root ↔ ∃ path, (s.files.lookup (root, path)).isSome := by
  simp only [State.Holds, AList.lookup_isSome]

theorem without_holds {roots : List Root} (h : Without s s' roots) :
    s'.Holds root ↔ s.Holds root ∧ root ∉ roots := by
  simp only [holds_iff, h.files]
  by_cases hroot : root ∈ roots
  · simp [hroot]
  · simp [hroot]

theorem without_rootBytes {roots : List Root} (h : Without s s' roots) (hroot : root ∉ roots) :
    s'.rootBytes root = s.rootBytes root := by
  apply sumOn_congr
  intro key hkey
  rw [h.files, of_decide_eq_true hkey, if_neg hroot]

theorem without_accounted {roots : List Root} (h : Without s s' roots) (ha : Accounted s) :
    Accounted s' := by
  intro root hholds
  obtain ⟨hs, hroot⟩ := (without_holds h).mp hholds
  rw [h.lru, if_neg hroot, without_rootBytes h hroot]
  exact ha root hs

omit [DecidableEq Path] in
theorem touched_accounted (ha : Accounted s) (root : Root) :
    Accounted { s with seen := root :: s.seen, lru := (s.lru.touch root none).1 } := by
  intro root' hholds
  have hlookup := ha root' hholds
  rw [touch_lookup]
  split
  · rename_i hroot
    subst hroot
    cases hentry : s.lru.byRoot.lookup root' with
    | none =>
      rw [hentry] at hlookup
      cases hlookup
    | some entry =>
      rw [hentry] at hlookup
      exact hlookup
  · exact hlookup

theorem touch_accounted (ha : Accounted s) (cfg : EvictConfig) (root : Root) (flushed : Bool)
    (order : List (Entry Root)) :
    Accounted (s.touchAndMaybeEvict cfg root flushed order) := by
  simp only [State.touchAndMaybeEvict]
  split
  · exact ha
  · split
    · exact without_accounted (evictAll_without _ _ _) (touched_accounted ha root)
    · exact touched_accounted ha root

theorem erase_lookup (s : State Root Path) (root root' : Root) (path path' : Path) :
    (s.files.erase (root, path)).lookup (root', path') =
      if root' = root ∧ path' = path then none else s.files.lookup (root', path') := by
  split
  · rename_i h
    rw [h.1, h.2, AList.lookup_erase]
  · rename_i h
    apply AList.lookup_erase_ne
    intro heq
    exact h (Prod.mk.inj heq)

theorem erased_rootBytes (s : State Root Path) (root : Root) (path : Path) :
    State.rootBytes { s with files := s.files.erase (root, path) } root =
      s.otherBytes root path := sumOn_erase _ _ _ _

theorem rootBytes_eq (s : State Root Path) (root : Root) (path : Path) :
    s.rootBytes root = s.otherBytes root path + worth id s.files (root, path) := by
  rw [State.rootBytes, sumOn_split _ _ _ (root, path), if_pos (decide_eq_true rfl)]
  rfl

theorem erased_elsewhere (s : State Root Path) (path : Path) (h : root' ≠ root) :
    State.rootBytes { s with files := s.files.erase (root, path) } root' = s.rootBytes root' ∧
      (State.Holds { s with files := s.files.erase (root, path) } root' ↔ s.Holds root') := by
  constructor
  · apply sumOn_congr
    intro key hkey
    apply AList.lookup_erase_ne
    rintro rfl
    exact h (of_decide_eq_true hkey).symm
  · simp only [holds_iff, erase_lookup, h, false_and, if_false]

/-- Removing a file keeps the table right exactly if it was not there, empty, or the last. -/
theorem erase_accounted (ha : Accounted s) (root : Root) (path : Path) :
    Accounted { s with files := s.files.erase (root, path) } ↔ Spare s root path := by
  have hother (hkept : State.Holds { s with files := s.files.erase (root, path) } root →
      (s.lru.byRoot.lookup root).map LruEntry.bytes = some (some (s.otherBytes root path))) :
      Accounted { s with files := s.files.erase (root, path) } := by
    intro root' hholds
    by_cases hroot : root' = root
    · subst hroot
      rw [erased_rootBytes]
      exact hkept hholds
    · obtain ⟨hbytes, hiff⟩ := erased_elsewhere s path hroot
      rw [hbytes]
      exact ha root' (hiff.mp hholds)
  have hbefore (hholds : State.Holds { s with files := s.files.erase (root, path) } root) :
      s.Holds root := by
    obtain ⟨other, hmem⟩ := hholds
    exact ⟨other, (AList.mem_erase.mp hmem).2⟩
  have hbytes := rootBytes_eq s root path
  constructor
  · intro hafter
    cases hfile : s.files.lookup (root, path) with
    | none => exact .inl hfile
    | some len =>
      by_cases hlast : ∀ other, (s.files.lookup (root, other)).isSome → other = path
      · exact .inr (.inr hlast)
      · -- another file is left, so the root must be accounted without this one
        push Not at hlast
        obtain ⟨other, hmem, hne⟩ := hlast
        have hholds : State.Holds { s with files := s.files.erase (root, path) } root := by
          exact ⟨other, AList.mem_erase.mpr
            ⟨fun heq => hne (Prod.mk.inj heq).2, AList.lookup_isSome.mp hmem⟩⟩
        have hleft := hafter root hholds
        rw [erased_rootBytes] at hleft
        have hsame := (ha root (hbefore hholds)).symm.trans hleft
        rw [hbytes, worth, hfile] at hsame
        have heq := Option.some.inj (Option.some.inj hsame)
        simp only [Option.elim_some, id_eq] at heq
        have hzero : len = 0 := by omega
        exact .inr (.inl (hzero ▸ hfile))
  · rintro (hnone | hzero | hlast)
    · apply hother
      intro hholds
      rw [ha root (hbefore hholds), hbytes, worth, hnone]
      rfl
    · apply hother
      intro hholds
      rw [ha root (hbefore hholds), hbytes, worth, hzero]
      rfl
    · apply hother
      rintro ⟨other, hmem⟩
      have hpath := hlast other (AList.lookup_isSome.mpr (AList.mem_erase.mp hmem).2)
      rw [hpath] at hmem
      exact absurd rfl (AList.mem_erase.mp hmem).1

theorem touched_own {order : List (Entry Root)}
    (hperm : order.Perm (s.lru.touch root none).1.byRoot.entries) (cfg : EvictConfig)
    (flushed : Bool) (path : Path) :
    (s.touchAndMaybeEvict cfg root flushed order).files.lookup (root, path) =
        s.files.lookup (root, path) ∧
      ((root, path) ∈ (s.touchAndMaybeEvict cfg root flushed order).confirmed ↔
        (root, path) ∈ s.confirmed) := by
  simp only [State.touchAndMaybeEvict]
  split
  · exact ⟨rfl, .rfl⟩
  · split
    · have hwithout := evictAll_without
        { s with seen := root :: s.seen, lru := (s.lru.touch root none).1 } s.pins.snapshot
        ((s.lru.touch root none).1.evictionCandidates order cfg (root :: s.pins.snapshot))
      have hroot : root ∉ ((s.lru.touch root none).1.evictionCandidates order cfg
          (root :: s.pins.snapshot)).filter fun root => root ∉ s.pins.snapshot := by
        intro hmem
        have hunpinned := (candidates_unpinned hperm (List.mem_filter.mp hmem).1).2
        exact hunpinned List.mem_cons_self
      constructor
      · exact (hwithout.files (root, path)).trans (if_neg hroot)
      · exact (hwithout.confirmed (root, path)).trans (and_iff_left hroot)
    · exact ⟨rfl, .rfl⟩

theorem touched_spare {order : List (Entry Root)}
    (hperm : order.Perm (s.lru.touch root none).1.byRoot.entries) (cfg : EvictConfig)
    (flushed : Bool) (path : Path) :
    Spare (s.touchAndMaybeEvict cfg root flushed order) root path ↔ Spare s root path := by
  simp only [Spare, touched_own hperm]

/-- An acquisition keeps the table right exactly if the file it clears, if any, is spare. -/
theorem acquire_accounted_iff {order : List (Entry Root)}
    (hperm : order.Perm (s.lru.touch root none).1.byRoot.entries) (ha : Accounted s)
    (flushed : Bool) :
    Accounted (next cfg s (.acquireResource root path flushed order)) ↔
      (root, path) ∈ s.confirmed ∨ Spare s root path := by
  obtain ⟨hfile, hconfirmed⟩ := touched_own hperm cfg flushed path
  have htouched := touch_accounted ha cfg root flushed order
  simp only [next, hconfirmed, hfile]
  by_cases hkept : (root, path) ∈ s.confirmed ∧ (s.files.lookup (root, path)).any (0 < ·) = true
  · rw [if_pos hkept]
    exact ⟨fun _ => .inl hkept.1, fun _ => htouched⟩
  · rw [if_neg hkept]
    have herase := (erase_accounted htouched root path).trans
      (touched_spare hperm cfg flushed path)
    refine Iff.trans ?_ (herase.trans ?_)
    · exact Iff.rfl
    · refine ⟨.inr, ?_⟩
      rintro (hconfirmed | hspare)
      · -- a confirmed file is cleared only if it is not there or empty
        cases hlookup : s.files.lookup (root, path) with
        | none => exact .inl hlookup
        | some len =>
          cases len with
          | zero => exact .inr (.inl hlookup)
          | succ len => exact absurd ⟨hconfirmed, by simp [hlookup]⟩ hkept
      · exact hspare

theorem committed_rootBytes (s : State Root Path) (root : Root) (path : Path) (len : ℕ)
    (sized : Bool) :
    (s.committed root path len sized).rootBytes root = s.otherBytes root path + len := by
  have hinsert := sumOn_insert (fun key : Root × Path => key.1 = root) id s.files (root, path) len
  rw [if_pos (decide_eq_true rfl)] at hinsert
  exact hinsert

theorem committed_elsewhere (s : State Root Path) (path : Path) (len : ℕ) (sized : Bool)
    (h : root' ≠ root) :
    (s.committed root path len sized).rootBytes root' = s.rootBytes root' ∧
      ((s.committed root path len sized).Holds root' ↔ s.Holds root') := by
  have hlookup (key : Root × Path) (hkey : key.1 = root') :
      (s.committed root path len sized).files.lookup key = s.files.lookup key := by
    apply AList.lookup_insert_ne
    rintro rfl
    exact h hkey.symm
  constructor
  · apply sumOn_congr
    exact fun key hkey => hlookup key (of_decide_eq_true hkey)
  · simp only [holds_iff, hlookup]

theorem committed_holds (s : State Root Path) (root : Root) (path : Path) (len : ℕ)
    (sized : Bool) :
    (s.committed root path len sized).Holds root := ⟨path, (AList.mem_insert _).mpr (.inl rfl)⟩

theorem committed_lookup (s : State Root Path) (root root' : Root) (path : Path) (len : ℕ)
    (sized : Bool) :
    ((s.committed root path len sized).lru.byRoot.lookup root').map LruEntry.bytes =
      if root' = root ∧ root ∈ s.lru.byRoot then some (some len)
      else (s.lru.byRoot.lookup root').map LruEntry.bytes := updateBytes_lookup _ _ _ _

theorem committed_accounted (ha : Accounted s) (hmem : root ∈ s.lru.byRoot)
    (hother : s.otherBytes root path = 0) (len : ℕ) (sized : Bool) :
    Accounted (s.committed root path len sized) := by
  intro root' hholds
  rw [committed_lookup]
  by_cases hroot : root' = root
  · subst hroot
    rw [if_pos ⟨rfl, hmem⟩, committed_rootBytes, hother, Nat.zero_add]
  · obtain ⟨hbytes, hiff⟩ := committed_elsewhere s path len sized hroot
    rw [if_neg fun h => hroot h.1, hbytes]
    exact ha root' (hiff.mp hholds)

theorem commit_without (cfg : EvictConfig) (s : State Root Path) (root : Root) (path : Path)
    (len : ℕ) (sized : Bool) (order : List (Entry Root)) :
    ∃ roots, Without (s.committed root path len sized)
      (next cfg s (.commit root path len sized order)) roots ∧
      ∀ evicted ∈ roots, evicted ∉ s.pins.snapshot := by
  simp only [next, State.checkAndEvictIfOverLimit]
  split
  · exact ⟨[], without_nil _, fun _ h => absurd h List.not_mem_nil⟩
  · refine ⟨_, evictAll_without _ _ _, fun evicted hmem => ?_⟩
    exact of_decide_eq_true (List.mem_filter.mp hmem).2

theorem commit_accounted_iff (hheld : root ∈ s.pins.snapshot) (ha : Accounted s) (len : ℕ)
    (sized : Bool) (order : List (Entry Root)) :
    Accounted (next cfg s (.commit root path len sized order)) ↔
      root ∈ s.lru.byRoot ∧ s.otherBytes root path = 0 := by
  obtain ⟨roots, hwithout, hunpinned⟩ := commit_without cfg s root path len sized order
  constructor
  · intro hafter
    have hroot : root ∉ roots := fun hmem => hunpinned root hmem hheld
    have hholds := (without_holds hwithout).mpr ⟨committed_holds s root path len sized, hroot⟩
    have hlookup := hafter root hholds
    rw [hwithout.lru, if_neg hroot, without_rootBytes hwithout hroot, committed_rootBytes,
      committed_lookup] at hlookup
    by_cases hmem : root ∈ s.lru.byRoot
    · rw [if_pos ⟨rfl, hmem⟩] at hlookup
      have heq := Option.some.inj (Option.some.inj hlookup)
      exact ⟨hmem, by omega⟩
    · rw [if_neg fun h => hmem h.2, AList.lookup_eq_none.mpr hmem] at hlookup
      cases hlookup
  · rintro ⟨hmem, hother⟩
    exact without_accounted hwithout (committed_accounted ha hmem hother len sized)

theorem accounted_diskBytes (ha : Accounted s) : s.diskBytes ≤ s.lru.recorded := by
  have hcover : ∀ key ∈ s.files, key.1 ∈ s.lru.byRoot.keys.toFinset := by
    intro key hkey
    have hlookup := ha key.1 ⟨key.2, hkey⟩
    rw [List.mem_toFinset, ← AList.mem_keys, ← AList.lookup_isSome]
    cases hentry : s.lru.byRoot.lookup key.1 with
    | none =>
      rw [hentry] at hlookup
      cases hlookup
    | some entry => rfl
  rw [State.diskBytes, sumOn_groups Prod.fst id s.files _ hcover, LruState.recorded, sumOn_eq]
  simp only [Finset.filter_true]
  apply Finset.sum_le_sum
  intro root _
  by_cases hholds : s.Holds root
  · have hlookup := ha root hholds
    obtain ⟨entry, hentry, hbytes⟩ := Option.map_eq_some_iff.mp hlookup
    rw [worth, hentry, Option.elim_some, LruEntry.size, hbytes]
    exact le_rfl
  · have hzero : sumOn (fun key : Root × Path => key.1 = root) id s.files = 0 := by
      rw [sumOn_eq]
      apply Finset.sum_eq_zero
      intro key hkey
      obtain ⟨hmem, hroot⟩ := Finset.mem_filter.mp hkey
      rw [List.mem_toFinset, ← AList.mem_keys] at hmem
      rw [← of_decide_eq_true hroot] at hholds
      exact absurd ⟨key.2, hmem⟩ hholds
    rw [hzero]
    exact Nat.zero_le _

theorem evicted_quota {order : List (Entry Root)} {max : ℕ} {candidates : List Root}
    (hcandidates : s.lru.evictionCandidates order cfg s.pins.snapshot = candidates)
    (ha : Accounted (s.evictAll s.pins.snapshot candidates))
    (hperm : order.Perm s.lru.byRoot.entries) (hfits : s.lru.recorded < word)
    (hmax : cfg.maxBytes = some max) :
    WithinQuota (s.evictAll s.pins.snapshot candidates) max := by
  have hwithout := evictAll_without s s.pins.snapshot candidates
  have hall (root : Root) : root ∈ candidates.filter (fun root => root ∉ s.pins.snapshot) ↔
      root ∈ candidates := by
    rw [List.mem_filter, decide_eq_true_eq, ← hcandidates]
    exact and_iff_left_of_imp fun hmem => (candidates_unpinned hperm hmem).2
  have henough := candidates_enough hperm hfits s.pins.snapshot hmax
  rw [hcandidates] at henough
  rcases henough with hrest | hless
  · right
    intro root hholds
    obtain ⟨_, hkept⟩ := (without_holds hwithout).mp hholds
    have hlookup := ha root hholds
    rw [hwithout.lru, if_neg hkept] at hlookup
    have hmem : root ∈ s.lru.byRoot := by
      rw [← AList.lookup_isSome]
      obtain ⟨entry, hentry, _⟩ := Option.map_eq_some_iff.mp hlookup
      rw [hentry]
      rfl
    by_contra hpinned
    rw [PinsIndex.mem_snapshot, hwithout.pins root hkept, ← PinsIndex.mem_snapshot] at hpinned
    exact hkept ((hall root).mpr (hrest root hmem hpinned))
  · left
    refine ((accounted_diskBytes ha).trans ?_).trans hless
    have hgone (root : Root) (hmem : root ∈ candidates) :
        (s.evictAll s.pins.snapshot candidates).lru.byRoot.lookup root = none := by
      rw [hwithout.lru, if_pos ((hall root).mpr hmem)]
    rw [LruState.recorded, ← sumOn_add_not (fun root => decide (root ∈ candidates))]
    have hzero : sumOn (fun root => decide (root ∈ candidates)) LruEntry.size
        (s.evictAll s.pins.snapshot candidates).lru.byRoot = 0 := by
      rw [sumOn_eq]
      apply Finset.sum_eq_zero
      intro root hmem
      apply worth_of_notMem
      exact AList.lookup_eq_none.mp (hgone root (of_decide_eq_true (Finset.mem_filter.mp hmem).2))
    rw [hzero, zero_add]
    apply le_of_eq
    apply sumOn_congr
    intro root hkept
    rw [hwithout.lru, if_neg]
    intro hmem
    rw [decide_eq_true ((hall root).mp hmem)] at hkept
    cases hkept

theorem commit_quota {order : List (Entry Root)} {len max : ℕ} {sized : Bool}
    (ha : Accounted (next cfg s (.commit root path len sized order)))
    (hperm : order.Perm (s.committed root path len sized).lru.byRoot.entries)
    (hfits : (s.committed root path len sized).lru.recorded < word)
    (hmax : cfg.maxBytes = some max) :
    WithinQuota (next cfg s (.commit root path len sized order)) max := by
  have hnext : next cfg s (.commit root path len sized order) =
      (s.committed root path len sized).evictAll s.pins.snapshot
        ((s.committed root path len sized).lru.evictionCandidates order cfg s.pins.snapshot) := by
    simp only [next, State.checkAndEvictIfOverLimit, hmax, Option.isNone_some]
    rfl
  rw [hnext] at ha ⊢
  exact evicted_quota rfl ha hperm hfits hmax

theorem next_accounted (cfg : EvictConfig) (ha : Accounted s) {a : Action Root Path}
    (he : Enabled s a) (hb : Bookkept s a) : Accounted (next cfg s a) := by
  cases a with
  | openResource root path flushed order =>
    have htouched := touch_accounted ha cfg root flushed order
    simp only [next]
    split
    · exact htouched
    · exact htouched
  | acquireResource root path flushed order => exact (acquire_accounted_iff he ha flushed).mpr hb
  | lease root durability => exact ha
  | release root durability => exact ha
  | commit root path len sized order =>
    obtain ⟨roots, hwithout, _⟩ := commit_without cfg s root path len sized order
    exact without_accounted hwithout (committed_accounted ha hb.1 hb.2 len sized)
  | removeResource root path => exact (erase_accounted ha root path).mpr hb
  | deleteAsset root => exact without_accounted (deleteAsset_without s root) ha

theorem next_accounted_iff (ha : Accounted s) {a : Action Root Path} (he : Enabled s a)
    (hheld : Held s a) : Accounted (next cfg s a) ↔ Bookkept s a := by
  refine ⟨fun hafter => ?_, next_accounted cfg ha he⟩
  cases a with
  | acquireResource root path flushed order =>
    exact (acquire_accounted_iff he ha flushed).mp hafter
  | commit root path len sized order =>
    exact (commit_accounted_iff hheld ha len sized order).mp hafter
  | removeResource root path => exact (erase_accounted ha root path).mp hafter
  | _ => trivial

omit [DecidableEq Path] in
theorem start_accounted : Accounted (start : State Root Path) := by
  rintro root ⟨path, hmem⟩
  exact absurd hmem (AList.notMem_empty _)

theorem quota_kept_iff_bookkept (cfg : EvictConfig) (as : List (Action Root Path))
    (hv : (machine cfg).ValidTrace start as) :
    ((machine cfg).Along Bookkept start as → (machine cfg).Throughout Accounted start as ∧
      ((machine cfg).Along Countable start as → (machine cfg).Along (Quota cfg) start as)) ∧
    ((machine cfg).Along Held start as →
      ((machine cfg).Throughout Accounted start as ↔ (machine cfg).Along Bookkept start as)) := by
  refine ⟨fun hb => ⟨?_, fun hc => ?_⟩, fun hheld => ?_⟩
  · refine throughout_of_along (fun s a ha he hs => ?_) start_accounted hv hb
    exact next_accounted cfg ha he hs
  · refine along_of_invariant (I := Accounted) (fun s a ha he hg => ?_) start_accounted hv
      (along_and.mpr ⟨hb, hc⟩)
    have hafter := next_accounted cfg ha he hg.1
    refine ⟨?_, hafter⟩
    cases a with
    | commit root path len sized order => exact fun max hmax => commit_quota hafter he hg.2 hmax
    | _ => trivial
  · exact throughout_iff_along_under (J := fun _ => True) (fun _ _ _ _ => trivial)
      (fun s a _ ha he hs => next_accounted_iff ha he hs) trivial start_accounted hv hheld

/-- A file of each of three roots; the last commit exceeds the quota. -/
def threeRoots : List (AssetCache.Action ℕ ℕ) :=
  [.acquireResource 0 0 true [⟨0, ⟨none, 1⟩⟩], .commit 0 0 60 true [⟨0, ⟨some 60, 1⟩⟩],
    .release 0 .durable,
    .acquireResource 1 1 true [⟨1, ⟨none, 2⟩⟩, ⟨0, ⟨some 60, 1⟩⟩],
    .commit 1 1 1 true [⟨1, ⟨some 1, 2⟩⟩, ⟨0, ⟨some 60, 1⟩⟩], .release 1 .durable,
    .acquireResource 2 2 true [⟨2, ⟨none, 3⟩⟩, ⟨1, ⟨some 1, 2⟩⟩, ⟨0, ⟨some 60, 1⟩⟩],
    .commit 2 2 60 true [⟨2, ⟨some 60, 3⟩⟩, ⟨1, ⟨some 1, 2⟩⟩, ⟨0, ⟨some 60, 1⟩⟩],
    .release 2 .durable]

def twoFiles : List (AssetCache.Action ℕ ℕ) :=
  [.acquireResource 0 0 true [⟨0, ⟨none, 1⟩⟩], .commit 0 0 60 true [⟨0, ⟨some 60, 1⟩⟩],
    .acquireResource 0 1 true [⟨0, ⟨some 60, 2⟩⟩], .commit 0 1 60 true [⟨0, ⟨some 60, 1⟩⟩],
    .release 0 .durable, .release 0 .durable,
    .acquireResource 1 0 true [⟨1, ⟨none, 2⟩⟩, ⟨0, ⟨some 60, 1⟩⟩],
    .commit 1 0 1 true [⟨1, ⟨some 1, 2⟩⟩, ⟨0, ⟨some 60, 1⟩⟩]]

def hundred : EvictConfig := { maxAssets := none, maxBytes := some 100 }

theorem threeRoots_valid : (machine hundred).ValidTrace start threeRoots :=
  ⟨.refl _, .refl _, trivial, .refl _, .refl _, trivial, .refl _, .refl _, trivial, trivial⟩

theorem threeRoots_bookkept : (machine hundred).Along Bookkept start threeRoots :=
  ⟨.inr (.inl rfl), ⟨by decide, by decide⟩, trivial, .inr (.inl rfl), ⟨by decide, by decide⟩,
    trivial, .inr (.inl rfl), ⟨by decide, by decide⟩, trivial, trivial⟩

theorem threeRoots_countable : (machine hundred).Along Countable start threeRoots :=
  ⟨trivial, by show _ < _; decide, trivial, trivial, by show _ < _; decide, trivial, trivial,
    by show _ < _; decide, trivial, trivial⟩

theorem twoFiles_valid : (machine hundred).ValidTrace start twoFiles :=
  ⟨.refl _, .refl _, .refl _, .refl _, trivial, trivial, .refl _, .refl _, trivial⟩

/-- The oldest root goes at the last commit, and the quota holds. -/
theorem quota_kept_three_roots :
    (machine hundred).Throughout Accounted start threeRoots ∧
    (machine hundred).Along (Quota hundred) start threeRoots ∧
    ((machine hundred).runTrace start threeRoots).files.lookup (0, 0) = none := by
  obtain ⟨hkept, -⟩ := quota_kept_iff_bookkept hundred threeRoots threeRoots_valid
  obtain ⟨haccounted, hquota⟩ := hkept threeRoots_bookkept
  exact ⟨haccounted, hquota threeRoots_countable, by decide⟩

/-- The second commit leaves the root recorded with the length of one file, so a later commit
finds 61 bytes in the table with 121 on disk, none of the first root's pinned. -/
theorem two_files_exceed_quota : (machine hundred).ValidTrace start twoFiles ∧
    ¬ Accounted ((machine hundred).runTrace start (twoFiles.take 4)) ∧
    ¬ WithinQuota ((machine hundred).runTrace start twoFiles) 100 := by
  refine ⟨twoFiles_valid, fun haccounted => ?_, ?_⟩
  · have hlookup := haccounted 0 ⟨0, by decide⟩
    revert hlookup
    decide
  · rintro (hbytes | hpinned)
    · revert hbytes
      decide
    · have hin := hpinned 0 ⟨0, by decide⟩
      revert hin
      decide

end CacheQuota

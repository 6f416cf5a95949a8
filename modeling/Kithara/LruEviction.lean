import Kithara.LruTable
import Mathlib.Data.List.Sigma
import Mathlib.Data.List.Infix

/-! The roots an LRU table gives up: the shortest run of the oldest unpinned ones after which the
limits hold, as long as the recorded bytes are added up within a word. And the table's file. -/
namespace LruTable

open KeyedSums

variable {Root : Type*} [DecidableEq Root]

namespace LruState

/-- The unpinned entries in the order of their last touch. -/
def oldest (order : List (Entry Root)) (pinned : List Root) : List (Entry Root) :=
  (order.insertionSort fun a b => a.2.lastTouch ≤ b.2.lastTouch).filter fun e => e.1 ∉ pinned

def Leaves (s : LruState Root) (cfg : EvictConfig) (gone : List Root) : Prop :=
  cfg.within (s.byRoot.entries.filter fun e => e.1 ∉ gone).length
    (sumOn (fun root => !decide (root ∈ gone)) LruEntry.size s.byRoot) = true

/-- The first of two roots was touched no later than the second. -/
def Precedes (s : LruState Root) (root root' : Root) : Prop :=
  ∃ entry ∈ s.byRoot.lookup root, ∃ entry' ∈ s.byRoot.lookup root',
    entry.lastTouch ≤ entry'.lastTouch

end LruState

instance (s : LruState Root) (cfg : EvictConfig) (gone : List Root) :
    Decidable (s.Leaves cfg gone) := inferInstanceAs (Decidable (_ = true))

structure Evicts (s : LruState Root) (order : List (Entry Root)) (cfg : EvictConfig)
    (pinned answer : List Root) : Prop where
  distinct : answer.Nodup
  unpinned : ∀ root ∈ answer, root ∈ s.byRoot ∧ root ∉ pinned
  ordered : answer.Pairwise s.Precedes
  leading : answer <+: (LruState.oldest order pinned).map Sigma.fst
  enough : s.Leaves cfg answer ∨ answer = (LruState.oldest order pinned).map Sigma.fst
  shortest : ∀ shorter, shorter <+: answer → shorter ≠ answer → ¬ s.Leaves cfg shorter

variable {s : LruState Root} {order : List (Entry Root)} {cfg : EvictConfig} {pinned : List Root}

def bytesOf (entries : List (Entry Root)) : ℕ := (entries.map fun e => e.2.size).sum

omit [DecidableEq Root] in
theorem within_mono {assets assets' bytes bytes' : ℕ} (h : cfg.within assets bytes = true)
    (ha : assets' ≤ assets) (hb : bytes' ≤ bytes) : cfg.within assets' bytes' = true := by
  simp only [EvictConfig.within, Bool.and_eq_true, Option.all_eq_true, decide_eq_true_eq] at h ⊢
  exact ⟨fun max hmax => ha.trans (h.1 max hmax), fun max hmax => hb.trans (h.2 max hmax)⟩

omit [DecidableEq Root] in
theorem bytesOf_take_mono (entries : List (Entry Root)) {j k : ℕ} (h : j ≤ k) :
    bytesOf (entries.take j) ≤ bytesOf (entries.take k) := by
  obtain ⟨more, rfl⟩ := Nat.exists_eq_add_of_le h
  rw [bytesOf, bytesOf, List.take_add, List.map_append, List.sum_append]
  exact Nat.le_add_right _ _

omit [DecidableEq Root] in
theorem scan_stops (cfg : EvictConfig) (assets bytes : ℕ) (l : List (Entry Root)) :
    ∃ k ≤ l.length, scan cfg assets bytes l = (l.take k).map Sigma.fst ∧
      (k = l.length ∨ 0 < k ∧ cfg.within (assets - k) (bytes - bytesOf (l.take k)) = true) ∧
      ∀ j, 0 < j → j < k → cfg.within (assets - j) (bytes - bytesOf (l.take j)) = false := by
  induction l generalizing assets bytes with
  | nil => exact ⟨0, Nat.le_refl _, rfl, .inl rfl, fun j _ hj => absurd hj (Nat.not_lt_zero j)⟩
  | cons e rest ih =>
    cases hdone : cfg.within (assets - 1) (bytes - e.2.size) with
    | true =>
      refine ⟨1, by simp, by simp [scan, hdone], .inr ⟨Nat.one_pos, ?_⟩, fun j hpos hj => ?_⟩
      · simpa [bytesOf] using hdone
      · omega
    | false =>
      obtain ⟨k, hk, hscan, hend, hbefore⟩ := ih (assets - 1) (bytes - e.2.size)
      have step : ∀ i, assets - (i + 1) = assets - 1 - i ∧
          bytes - bytesOf ((e :: rest).take (i + 1)) =
            bytes - e.2.size - bytesOf (rest.take i) := by
        intro i
        refine ⟨by omega, ?_⟩
        simp only [bytesOf, List.take_succ_cons, List.map_cons, List.sum_cons]
        omega
      refine ⟨k + 1, Nat.succ_le_succ hk, by simp [scan, hdone, hscan], ?_, fun j hpos hj => ?_⟩
      · rcases hend with hall | ⟨-, hwithin⟩
        · exact .inl (congrArg (· + 1) hall)
        · refine .inr ⟨Nat.succ_pos k, ?_⟩
          rw [(step k).1, (step k).2]
          exact hwithin
      · obtain ⟨i, rfl⟩ := Nat.exists_eq_add_of_lt hpos
        rw [Nat.zero_add] at hj ⊢
        rw [(step i).1, (step i).2]
        rcases Nat.eq_zero_or_pos i with rfl | hi
        · simpa [bytesOf] using hdone
        · exact hbefore i hi (by omega)

/-- The answer as a prefix of the unpinned entries: it ends where the limits hold first, by what
`totalBytes` added up. -/
theorem candidates_stop (s : LruState Root) (order : List (Entry Root)) (cfg : EvictConfig)
    (pinned : List Root) :
    ∃ k ≤ (LruState.oldest order pinned).length,
      s.evictionCandidates order cfg pinned =
        ((LruState.oldest order pinned).take k).map Sigma.fst ∧
      (k = (LruState.oldest order pinned).length ∨
        cfg.within (s.byRoot.entries.length - k)
          (s.totalBytes - bytesOf ((LruState.oldest order pinned).take k)) = true) ∧
      ∀ j < k, cfg.within (s.byRoot.entries.length - j)
        (s.totalBytes - bytesOf ((LruState.oldest order pinned).take j)) = false := by
  cases hnow : cfg.within s.byRoot.entries.length s.totalBytes with
  | true =>
    have none_taken : s.evictionCandidates order cfg pinned = [] := by
      simp only [LruState.evictionCandidates, hnow, if_true, ite_self]
    refine ⟨0, Nat.zero_le _, none_taken, .inr ?_, fun j hj => absurd hj (Nat.not_lt_zero j)⟩
    simpa [bytesOf] using hnow
  | false =>
    have limited : (cfg.maxAssets.isNone && cfg.maxBytes.isNone) = false := by
      by_contra free
      rw [Bool.not_eq_false, Bool.and_eq_true, Option.isNone_iff_eq_none,
        Option.isNone_iff_eq_none] at free
      simp [EvictConfig.within, free.1, free.2] at hnow
    have scanned : s.evictionCandidates order cfg pinned =
        scan cfg s.byRoot.entries.length s.totalBytes (LruState.oldest order pinned) := by
      simp only [LruState.evictionCandidates, hnow, limited]
      rfl
    obtain ⟨k, hk, hscan, hend, hbefore⟩ := scan_stops cfg s.byRoot.entries.length s.totalBytes
      (LruState.oldest order pinned)
    refine ⟨k, hk, scanned.trans hscan, hend.imp_right And.right, fun j hj => ?_⟩
    rcases Nat.eq_zero_or_pos j with rfl | hpos
    · simpa [bytesOf] using hnow
    · exact hbefore j hpos hj

theorem leaves_take (hperm : order.Perm s.byRoot.entries) (cfg : EvictConfig) {k : ℕ}
    (hk : k ≤ (LruState.oldest order pinned).length) :
    s.Leaves cfg (((LruState.oldest order pinned).take k).map Sigma.fst) ↔
      cfg.within (s.byRoot.entries.length - k)
        (s.recorded - bytesOf ((LruState.oldest order pinned).take k)) = true := by
  generalize htaken : (LruState.oldest order pinned).take k = taken
  have hmem : ∀ e ∈ taken, e ∈ s.byRoot.entries := fun e he =>
    ((scanned_mem hperm).mp (List.mem_of_mem_take (htaken ▸ he))).1
  have hnodup : (taken.map Sigma.fst).Nodup := by
    rw [← htaken]
    exact (scanned_nodup hperm pinned).sublist ((List.take_sublist _ _).map _)
  have hlength : taken.length = k := by rw [← htaken, List.length_take, Nat.min_eq_left hk]
  have hsum : sumOn (fun root => !decide (root ∈ taken.map Sigma.fst)) LruEntry.size s.byRoot =
      s.recorded - bytesOf taken := by
    rw [LruState.recorded, ← sumOn_add_not (fun root => decide (root ∈ taken.map Sigma.fst)),
      sumOn_taken hmem hnodup, bytesOf, Nat.add_sub_cancel_left]
  have hcount : (s.byRoot.entries.filter fun e => e.1 ∉ taken.map Sigma.fst).length =
      s.byRoot.entries.length - k := by
    have hin : (s.byRoot.entries.filter fun e => e.1 ∈ taken.map Sigma.fst).Perm taken := by
      refine (List.perm_ext_iff_of_nodup (s.byRoot.nodupKeys.nodup.filter _)
        (List.Nodup.of_map _ hnodup)).mpr fun e => ?_
      rw [List.mem_filter, decide_eq_true_eq]
      constructor
      · rintro ⟨he, hroot⟩
        obtain ⟨e', he', hsame⟩ := List.mem_map.mp hroot
        exact s.byRoot.nodupKeys.eq_of_fst_eq (hmem e' he') he hsame ▸ he'
      · intro he
        exact ⟨hmem e he, List.mem_map_of_mem he⟩
    have hsplit := List.length_eq_length_filter_add (l := s.byRoot.entries)
      fun e => decide (e.1 ∈ taken.map Sigma.fst)
    rw [hin.length_eq, hlength] at hsplit
    have hnot : (s.byRoot.entries.filter fun e => !decide (e.1 ∈ taken.map Sigma.fst)) =
        s.byRoot.entries.filter fun e => e.1 ∉ taken.map Sigma.fst := by
      simp only [decide_not]
    rw [hnot] at hsplit
    omega
  rw [LruState.Leaves, hsum, hcount]

theorem oldest_pairwise (order : List (Entry Root)) (pinned : List Root) :
    (LruState.oldest order pinned).Pairwise fun a b => a.2.lastTouch ≤ b.2.lastTouch :=
  (List.pairwise_insertionSort (fun a b : Entry Root => a.2.lastTouch ≤ b.2.lastTouch)
    order).filter _

theorem taken_ordered (hperm : order.Perm s.byRoot.entries) (pinned : List Root) (k : ℕ) :
    (((LruState.oldest order pinned).take k).map Sigma.fst).Nodup ∧
      (∀ root ∈ ((LruState.oldest order pinned).take k).map Sigma.fst,
        root ∈ s.byRoot ∧ root ∉ pinned) ∧
      (((LruState.oldest order pinned).take k).map Sigma.fst).Pairwise s.Precedes := by
  have inside : ∀ e ∈ (LruState.oldest order pinned).take k,
      e ∈ s.byRoot.entries ∧ e.1 ∉ pinned :=
    fun e he => (scanned_mem hperm).mp (List.mem_of_mem_take he)
  refine ⟨(scanned_nodup hperm pinned).sublist ((List.take_sublist _ _).map _), ?_, ?_⟩
  · intro root hroot
    obtain ⟨e, he, rfl⟩ := List.mem_map.mp hroot
    exact ⟨AList.mem_keys.mpr (List.mem_map_of_mem (inside e he).1), (inside e he).2⟩
  · rw [List.pairwise_map]
    refine ((oldest_pairwise order pinned).sublist (List.take_sublist k _)).imp_of_mem ?_
    intro a b ha hb older
    exact ⟨a.2, AList.mem_lookup_iff.mpr (inside a ha).1, b.2,
      AList.mem_lookup_iff.mpr (inside b hb).1, older⟩

/-- Without the oldest unpinned roots, as soon as few enough are left, the recorded bytes never
keep to their limit modulo the word alone. -/
def Honest (s : LruState Root) (order : List (Entry Root)) (cfg : EvictConfig)
    (pinned : List Root) : Prop :=
  ∀ maxBytes ∈ cfg.maxBytes, ∀ k < (LruState.oldest order pinned).length,
    (∀ maxAssets ∈ cfg.maxAssets, s.byRoot.entries.length ≤ maxAssets + k) →
    s.recorded % 2 ^ 64 ≤ maxBytes + bytesOf ((LruState.oldest order pinned).take k) →
    s.recorded ≤ maxBytes + bytesOf ((LruState.oldest order pinned).take k)

theorem within_iff {assets bytes : ℕ} : cfg.within assets bytes = true ↔
    (∀ maxAssets ∈ cfg.maxAssets, assets ≤ maxAssets) ∧
      ∀ maxBytes ∈ cfg.maxBytes, bytes ≤ maxBytes := by
  simp only [EvictConfig.within, Bool.and_eq_true, Option.all_eq_true, decide_eq_true_eq,
    Option.mem_def]

omit [DecidableEq Root] in
theorem totalBytes_wraps (s : LruState Root) : s.totalBytes = s.recorded % 2 ^ 64 := by
  rw [LruState.totalBytes, LruTable.recorded_eq]
  rfl

theorem honest_iff : Honest s order cfg pinned ↔
    ∀ k < (LruState.oldest order pinned).length,
      cfg.within (s.byRoot.entries.length - k)
        (s.totalBytes - bytesOf ((LruState.oldest order pinned).take k)) = true →
      cfg.within (s.byRoot.entries.length - k)
        (s.recorded - bytesOf ((LruState.oldest order pinned).take k)) = true := by
  simp only [within_iff, totalBytes_wraps, Nat.sub_le_iff_le_add]
  constructor
  · intro honest k hk ⟨hassets, hbytes⟩
    exact ⟨hassets, fun maxBytes hmax => honest maxBytes hmax k hk hassets (hbytes maxBytes hmax)⟩
  · intro honest maxBytes hmax k hk hassets hbytes
    refine (honest k hk ⟨hassets, fun max hmax' => ?_⟩).2 maxBytes hmax
    cases hmax.symm.trans hmax'
    exact hbytes

omit [DecidableEq Root] in
theorem totalBytes_le (s : LruState Root) : s.totalBytes ≤ s.recorded := by
  rw [totalBytes_wraps]
  exact Nat.mod_le _ _

theorem honest_of_fits (hfits : s.recorded < word) (order : List (Entry Root)) (cfg : EvictConfig)
    (pinned : List Root) : Honest s order cfg pinned := by
  intro maxBytes _ k _ _ hbytes
  have hsame : s.recorded % 2 ^ 64 = s.recorded := Nat.mod_eq_of_lt hfits
  rwa [hsame] at hbytes

theorem evicts_iff (hperm : order.Perm s.byRoot.entries) (cfg : EvictConfig)
    (pinned : List Root) :
    Evicts s order cfg pinned (s.evictionCandidates order cfg pinned) ↔
      Honest s order cfg pinned := by
  obtain ⟨count, hcount, answer, hend, hbefore⟩ := candidates_stop s order cfg pinned
  have size : ∀ k ≤ (LruState.oldest order pinned).length,
      (((LruState.oldest order pinned).take k).map Sigma.fst).length = k := by
    intro k hk
    rw [List.length_map, List.length_take, Nat.min_eq_left hk]
  rw [answer, honest_iff]
  constructor
  · intro evicts k hk hwithin
    have reached : count ≤ k := by
      by_contra hlt
      exact Bool.false_ne_true ((hbefore k (by omega)).symm.trans hwithin)
    rcases evicts.enough with hleaves | hall
    · rw [leaves_take hperm cfg hcount] at hleaves
      refine within_mono hleaves (by omega) ?_
      have := bytesOf_take_mono (LruState.oldest order pinned) reached
      omega
    · have := congrArg List.length hall
      rw [size count hcount, List.length_map] at this
      omega
  · intro honest
    obtain ⟨distinct, unpinned, ordered⟩ := taken_ordered hperm pinned count
    refine ⟨distinct, unpinned, ordered, (List.take_prefix _ _).map _, ?_, ?_⟩
    · rcases Nat.lt_or_ge count (LruState.oldest order pinned).length with hlt | hge
      · left
        rw [leaves_take hperm cfg hcount]
        exact honest count hlt (hend.resolve_left (by omega))
      · right
        rw [List.take_of_length_le hge]
    · intro shorter hprefix hne hleaves
      obtain ⟨j, hj, rfl⟩ : ∃ j < count, shorter =
          ((LruState.oldest order pinned).take j).map Sigma.fst := by
        have fewer := hprefix.length_le
        rw [size count hcount] at fewer
        have cut := List.prefix_iff_eq_take.mp hprefix
        rw [← List.map_take, List.take_take, Nat.min_eq_left fewer] at cut
        refine ⟨shorter.length, ?_, cut⟩
        rcases Nat.lt_or_eq_of_le fewer with hlt | heq
        · exact hlt
        · exact absurd (cut.trans (by rw [heq])) hne
      rw [leaves_take hperm cfg (by omega)] at hleaves
      refine Bool.false_ne_true ((hbefore j hj).symm.trans (within_mono hleaves le_rfl ?_))
      have := totalBytes_le s
      omega

inductive Update (Root : Type*) where
  | touch (root : Root) (bytesHint : Option ℕ)
  | updateBytes (root : Root) (bytes : ℕ)

def Update.touched : Update Root → Option Root
  | .touch root _ => some root
  | .updateBytes _ _ => none

def LruState.update (s : LruState Root) : Update Root → LruState Root
  | .touch root bytesHint => (s.touch root bytesHint).1
  | .updateBytes root bytes => (s.updateBytes root bytes).1

theorem update_lastTouch (s : LruState Root) (u : Update Root) {root : Root}
    (h : u.touched ≠ some root) :
    ((s.update u).byRoot.lookup root).map LruEntry.lastTouch =
      (s.byRoot.lookup root).map LruEntry.lastTouch := by
  cases u with
  | touch other bytesHint =>
    have apart : root ≠ other := fun same => h (congrArg some same.symm)
    cases hlookup : s.byRoot.lookup other with
    | none => simp [LruState.update, LruState.touch, hlookup, AList.lookup_insert_ne apart]
    | some entry => simp [LruState.update, LruState.touch, hlookup, AList.lookup_insert_ne apart]
  | updateBytes other bytes =>
    cases hlookup : s.byRoot.lookup other with
    | none => simp [LruState.update, LruState.updateBytes, hlookup]
    | some entry =>
      by_cases hsame : entry.bytes = some bytes
      · simp [LruState.update, LruState.updateBytes, hlookup, hsame]
      · by_cases hroot : root = other
        · subst hroot
          simp [LruState.update, LruState.updateBytes, hlookup, hsame]
        · simp [LruState.update, LruState.updateBytes, hlookup, hsame,
            AList.lookup_insert_ne hroot]

theorem updates_lastTouch (s : LruState Root) (us : List (Update Root)) {root : Root}
    (h : ∀ u ∈ us, u.touched ≠ some root) :
    ((us.foldl LruState.update s).byRoot.lookup root).map LruEntry.lastTouch =
      (s.byRoot.lookup root).map LruEntry.lastTouch := by
  induction us generalizing s with
  | nil => rfl
  | cons u us ih =>
    rw [List.foldl_cons, ih _ fun v hv => h v (List.mem_cons_of_mem _ hv)]
    exact update_lastTouch s u (h u List.mem_cons_self)

theorem precedes_iff (s : LruState Root) (root root' : Root) :
    s.Precedes root root' ↔
      ∃ at_ ∈ (s.byRoot.lookup root).map LruEntry.lastTouch,
        ∃ at' ∈ (s.byRoot.lookup root').map LruEntry.lastTouch, at_ ≤ at' := by
  simp only [LruState.Precedes, Option.mem_def, Option.map_eq_some_iff]
  constructor
  · rintro ⟨a, ha, b, hb, hle⟩
    exact ⟨_, ⟨a, ha, rfl⟩, _, ⟨b, hb, rfl⟩, hle⟩
  · rintro ⟨_, ⟨a, ha, rfl⟩, _, ⟨b, hb, rfl⟩, hle⟩
    exact ⟨a, ha, b, hb, hle⟩

structure LruEntryFile where
  bytes : Option ℕ
  lastTouch : ℕ
  deriving DecidableEq

variable (Root) in
structure LruIndexFile where
  entries : Table Root LruEntryFile
  version : ℕ
  clock : ℕ

/-- The entries of a map, inserted one by one into a new one. -/
def refill {ν μ : Type*} (f : ν → μ) (entries : List (Sigma fun _ : Root => ν)) : Table Root μ :=
  entries.foldl (fun table e => table.insert e.1 (f e.2)) ∅

def LruIndexFile.ofState (s : LruState Root) (order : List (Entry Root)) : LruIndexFile Root where
  entries := refill (fun entry => ⟨entry.bytes, entry.lastTouch⟩) order
  version := 1
  clock := s.clock

/-- `order` is how the map of the file is iterated. -/
def LruState.ofFile (file : LruIndexFile Root)
    (order : List (Sigma fun _ : Root => LruEntryFile)) : LruState Root where
  byRoot := refill (fun entry => ⟨entry.bytes, entry.lastTouch⟩) order
  clock := file.clock

theorem lookup_refill {ν μ : Type*} (f : ν → μ) {m : Table Root ν}
    {order : List (Sigma fun _ : Root => ν)} (hperm : order.Perm m.entries) (root : Root) :
    (refill f order).lookup root = (m.lookup root).map f := by
  have hkeys : order.NodupKeys := (List.perm_nodupKeys hperm).mpr m.nodupKeys
  have filled : ∀ (rest : List (Sigma fun _ : Root => ν)) (table : Table Root μ),
      rest.NodupKeys → (rest.foldl (fun table e => table.insert e.1 (f e.2)) table).lookup root =
        ((rest.dlookup root).map f).or (table.lookup root) := by
    intro rest
    induction rest with
    | nil => exact fun table _ => rfl
    | cons e rest ih =>
      intro table hnodup
      obtain ⟨hnew, hrest⟩ := List.nodupKeys_cons.mp hnodup
      rw [List.foldl_cons, ih _ hrest]
      by_cases hroot : root = e.1
      · subst hroot
        rw [List.dlookup_eq_none.mpr hnew, List.dlookup_cons_eq, AList.lookup_insert]
        rfl
      · rw [List.dlookup_cons_ne _ _ hroot, AList.lookup_insert_ne hroot]
  rw [refill, filled order ∅ hkeys, AList.lookup_empty, Option.or_none,
    List.perm_dlookup root hkeys hperm]
  rfl

theorem ofFile_ofState (hperm : order.Perm s.byRoot.entries)
    {order' : List (Sigma fun _ : Root => LruEntryFile)}
    (hperm' : order'.Perm (LruIndexFile.ofState s order).entries.entries) :
    (LruState.ofFile (.ofState s order) order').clock = s.clock ∧
      ∀ root, (LruState.ofFile (.ofState s order) order').byRoot.lookup root =
        s.byRoot.lookup root := by
  refine ⟨rfl, fun root => ?_⟩
  rw [LruState.ofFile, lookup_refill _ hperm']
  rw [LruIndexFile.ofState, lookup_refill _ hperm, Option.map_map]
  exact congrFun Option.map_id _

/-- A table that is iterated in whatever order gives up what its limits call for exactly if the sum
is honest; the order of two roots is that of their touches alone; and a file gives the table
back. -/
theorem lru_eviction_iff (s : LruState Root) (order : List (Entry Root))
    (hperm : order.Perm s.byRoot.entries) :
    (∀ cfg pinned, Evicts s order cfg pinned (s.evictionCandidates order cfg pinned) ↔
      Honest s order cfg pinned) ∧
    (∀ (us : List (Update Root)) (root root' : Root),
      (∀ u ∈ us, u.touched ≠ some root ∧ u.touched ≠ some root') →
        ((us.foldl LruState.update s).Precedes root root' ↔ s.Precedes root root')) ∧
    ∀ order', order'.Perm (LruIndexFile.ofState s order).entries.entries →
      (LruState.ofFile (.ofState s order) order').clock = s.clock ∧
        ∀ root, (LruState.ofFile (.ofState s order) order').byRoot.lookup root =
          s.byRoot.lookup root := by
  refine ⟨evicts_iff hperm, fun us root root' h => ?_, fun order' => ofFile_ofState hperm⟩
  rw [precedes_iff, precedes_iff, updates_lastTouch s us fun u hu => (h u hu).1,
    updates_lastTouch s us fun u hu => (h u hu).2]

/-- Three roots touched in turn, the oldest of them pinned. -/
def touched : LruState ℕ :=
  (((LruState.new.touch 0 (some 40)).1.touch 1 (some 30)).1.touch 2 none).1

theorem lru_eviction_iff_touched :
    Evicts touched touched.byRoot.entries ⟨some 2, some 50⟩ [0]
      (touched.evictionCandidates touched.byRoot.entries ⟨some 2, some 50⟩ [0]) :=
  ((lru_eviction_iff touched touched.byRoot.entries (.refl _)).1 _ _).mpr
    (honest_of_fits (by decide +kernel) _ _ _)

def brimming : LruState ℕ :=
  ((LruState.new.touch 0 (some (word / 2))).1.touch 1 (some (word / 2))).1

theorem brimming_keeps_all :
    brimming.evictionCandidates brimming.byRoot.entries ⟨none, some 50⟩ [] = [] ∧
      ¬ brimming.Leaves ⟨none, some 50⟩ [] ∧
      ¬ Evicts brimming brimming.byRoot.entries ⟨none, some 50⟩ []
        (brimming.evictionCandidates brimming.byRoot.entries ⟨none, some 50⟩ []) := by
  have answer : brimming.evictionCandidates brimming.byRoot.entries ⟨none, some 50⟩ [] = [] := by
    decide +kernel
  have exceeds : ¬ brimming.Leaves ⟨none, some 50⟩ [] := by decide +kernel
  refine ⟨answer, exceeds, fun evicts => ?_⟩
  rw [answer] at evicts
  rcases evicts.enough with leaves | all
  · exact exceeds leaves
  · exact absurd all (by decide +kernel)

end LruTable

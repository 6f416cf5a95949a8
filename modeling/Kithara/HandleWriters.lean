import Kithara.HandleDisplacement

/-! The writers of the handle cache. As long as no reader of a resource is reactivated behind the
cache's back, each live writer of it is the one its entry registers, the resource is active, and so
it is the only writer of its key and its entry stays. -/
namespace HandleCache

open Extraction RecencyCache TransitionSystem

variable {ι χ : Type}

def uses (s : State ι χ) (entries : List (CacheKey ι χ × CacheEntry)) : List (ℕ × ResourceKey) :=
  (s.writers.map fun w => (w.cell, w.key.key)) ++ (s.readers.map fun r => (r.cell, r.key.key)) ++
    entries.map fun x => (x.2.reader, x.1.key)

/-- What the entries and the live writers of a state know of each other, where they are of one
resource. -/
structure Sound (tracked : ResourceKey) (s : State ι χ)
    (entries : List (CacheKey ι χ × CacheEntry)) : Prop where
  tokens : (s.writers.map CachedWriter.token).Nodup
  issued : ∀ w ∈ s.writers, w.token < s.token
  readers : (entries.map fun x => x.2.reader).Nodup
  known : ∀ u ∈ uses s entries, u.1 < s.cell
  agree : ∀ u ∈ uses s entries, ∀ v ∈ uses s entries, u.1 = v.1 → u.2 = v.2
  cells : ∀ w ∈ s.writers, w.key.key = tracked → ∀ other ∈ s.writers, other.cell = w.cell →
    other.token = w.token
  active : ∀ w ∈ s.writers, w.key.key = tracked → isActive (s.cells w.cell).status = true
  owned : ∀ w ∈ s.writers, w.key.key = tracked → ∀ x ∈ entries, x.2.reader = w.cell →
    x.2.writer = some w.token
  registered : ∀ w ∈ s.writers, w.key.key = tracked → w.removed = false →
    w.key.key.isAbsolute = false →
      ∃ x ∈ entries, x.1 = w.key ∧ x.2.reader = w.cell ∧ x.2.writer = some w.token

/-- The writers of a resource that count: of relative keys, and not removed since. -/
def counted (tracked : ResourceKey) (s : State ι χ) : List (CachedWriter ι χ) :=
  s.writers.filter fun w => decide (w.key.key = tracked) && !w.removed && !w.key.key.isAbsolute

/-- At most one live writer for each cache key of a resource. -/
def SingleWriter (tracked : ResourceKey) (s : State ι χ) : Prop :=
  ((counted tracked s).map CachedWriter.key).Nodup

/-- No call displaces an entry of the resource with a live writer. -/
def SparesWriters (tracked : ResourceKey) (o : Outcome ι χ) : Prop :=
  ∀ x ∈ o.displaced, x.1.key = tracked → ∀ w ∈ o.state.writers, w.cell ≠ x.2.reader

def NotReactivated (tracked : ResourceKey) (_ : State ι χ) : Action ι χ → Prop
  | .reactivate reader reactivates => reader.key.key = tracked → reactivates = false
  | _ => True

variable {tracked : ResourceKey} {s s' : State ι χ}
  {entries entries' : List (CacheKey ι χ × CacheEntry)}

theorem uses_writer {w : CachedWriter ι χ} (h : w ∈ s.writers) :
    (w.cell, w.key.key) ∈ uses s entries :=
  List.mem_append_left _ (List.mem_append_left _ (List.mem_map.mpr ⟨w, h, rfl⟩))

theorem uses_reader {r : CachedReader ι χ} (h : r ∈ s.readers) :
    (r.cell, r.key.key) ∈ uses s entries :=
  List.mem_append_left _ (List.mem_append_right _ (List.mem_map.mpr ⟨r, h, rfl⟩))

theorem uses_entry {x : CacheKey ι χ × CacheEntry} (h : x ∈ entries) :
    (x.2.reader, x.1.key) ∈ uses s entries :=
  List.mem_append_right _ (List.mem_map.mpr ⟨x, h, rfl⟩)

theorem uses_subset (writers : ∀ w ∈ s'.writers, ∃ v ∈ s.writers, v.cell = w.cell ∧ v.key = w.key)
    (readers : s'.readers = s.readers)
    (held : ∀ x ∈ entries', ∃ y ∈ entries, y.2.reader = x.2.reader ∧ y.1.key = x.1.key) :
    ∀ u ∈ uses s' entries', u ∈ uses s entries := by
  intro u hu
  rcases List.mem_append.mp hu with hu | hu
  · rcases List.mem_append.mp hu with hu | hu
    · obtain ⟨w, hw, rfl⟩ := List.mem_map.mp hu
      obtain ⟨v, hv, cell, key⟩ := writers w hw
      rw [← cell, ← key]
      exact uses_writer hv
    · obtain ⟨r, hr, rfl⟩ := List.mem_map.mp hu
      exact uses_reader (readers ▸ hr)
  · obtain ⟨x, hx, rfl⟩ := List.mem_map.mp hu
    obtain ⟨y, hy, reader, key⟩ := held x hx
    rw [← reader, ← key]
    exact uses_entry hy

theorem agree_cons {us : List (ℕ × ResourceKey)} (use : ℕ × ResourceKey)
    (h : ∀ u ∈ us, ∀ v ∈ us, u.1 = v.1 → u.2 = v.2) (same : ∀ u ∈ us, u.1 = use.1 → u.2 = use.2) :
    ∀ u ∈ use :: us, ∀ v ∈ use :: us, u.1 = v.1 → u.2 = v.2 := by
  refine List.forall_mem_cons.mpr ⟨?_, fun u hu => ?_⟩
  · exact List.forall_mem_cons.mpr ⟨fun _ => rfl, fun v hv heq => (same v hv heq.symm).symm⟩
  · exact List.forall_mem_cons.mpr ⟨same u hu, h u hu⟩

theorem sound_single (h : Sound tracked s s.cache.entries) : SingleWriter tracked s := by
  have distinct : (counted tracked s).Nodup := (List.Nodup.of_map _ h.tokens).filter _
  refine List.Nodup.map_on (fun w hw w' hw' same => ?_) distinct
  obtain ⟨live, counts⟩ := List.mem_filter.mp hw
  obtain ⟨live', counts'⟩ := List.mem_filter.mp hw'
  simp only [Bool.and_eq_true, Bool.not_eq_true', decide_eq_true_eq] at counts counts'
  obtain ⟨x, hx, key, -, token⟩ := h.registered w live counts.1.1 counts.1.2 counts.2
  obtain ⟨x', hx', key', -, token'⟩ := h.registered w' live' counts'.1.1 counts'.1.2 counts'.2
  have one : x = x' := List.inj_on_of_nodup_map s.cache.nodup hx hx'
    (key.trans (same.trans key'.symm))
  rw [one, token'] at token
  exact List.inj_on_of_nodup_map h.tokens live live' (Option.some.inj token.symm)

/-- Entries are replaced by ones of the same resource, key and token, and only those of resources
that are not active go. -/
theorem sound_replace (h : Sound tracked s entries)
    (readers : (entries'.map fun x => x.2.reader).Nodup)
    (known : ∀ x ∈ entries', ∃ y ∈ entries, y.2.reader = x.2.reader ∧ y.1.key = x.1.key ∧
      y.2.writer = x.2.writer)
    (kept : ∀ y ∈ entries, isActive (s.cells y.2.reader).status = true →
      ∃ x ∈ entries', x.1 = y.1 ∧ x.2.reader = y.2.reader ∧ x.2.writer = y.2.writer) :
    Sound tracked s entries' := by
  have used : ∀ u ∈ uses s entries', u ∈ uses s entries := by
    refine uses_subset (fun w hw => ⟨w, hw, rfl, rfl⟩) rfl fun x hx => ?_
    obtain ⟨y, hy, reader, key, -⟩ := known x hx
    exact ⟨y, hy, reader, key⟩
  exact
    { tokens := h.tokens
      issued := h.issued
      readers := readers
      known := fun u hu => h.known u (used u hu)
      agree := fun u hu v hv => h.agree u (used u hu) v (used v hv)
      cells := h.cells
      active := h.active
      owned := fun w hw here x hx same => by
        obtain ⟨y, hy, reader, -, writer⟩ := known x hx
        exact writer ▸ h.owned w hw here y hy (reader.trans same)
      registered := fun w hw here live relative => by
        obtain ⟨y, hy, key, reader, writer⟩ := h.registered w hw here live relative
        obtain ⟨x, hx, key', reader', writer'⟩ := kept y hy (reader ▸ h.active w hw here)
        exact ⟨x, hx, key'.trans key, reader'.trans reader, writer'.trans writer⟩ }

theorem sound_trades (h : Sound tracked s entries) {o : Outcome ι χ} (trades : Trades s entries o) :
    Sound tracked s o.state.cache.entries := by
  refine sound_replace h (h.readers.sublist (trades.order.map _)) (fun x hx => ?_)
    fun y hy active => ?_
  · exact ⟨x, trades.order.subset hx, rfl, rfl, rfl⟩
  · rcases List.mem_append.mp (trades.parts.mem_iff.mp hy) with displaced | stays
    · rw [(trades.spent y displaced).1] at active
      cases active
    · exact ⟨y, stays, rfl, rfl, rfl⟩

theorem trades_spares (h : Sound tracked s entries) {o : Outcome ι χ}
    (trades : Trades s entries o) : SparesWriters tracked o := by
  intro x hx here w hw same
  rw [trades.rest] at hw
  have held : x ∈ entries := trades.parts.mem_iff.mpr (List.mem_append_left _ hx)
  have named : w.key.key = x.1.key := h.agree _ (uses_writer hw) _ (uses_entry held) same
  have active := h.active w hw (named.trans here)
  rw [same, (trades.spent x hx).1] at active
  cases active

theorem sound_congr (h : Sound tracked s entries) (writers : s'.writers = s.writers)
    (readers : s'.readers = s.readers) (cells : s'.cells = s.cells) (cell : s'.cell = s.cell)
    (token : s'.token = s.token) : Sound tracked s' entries := by
  have used : uses s' entries = uses s entries := by rw [uses, uses, writers, readers]
  constructor
  · exact writers ▸ h.tokens
  · rw [writers, token]
    exact h.issued
  · exact h.readers
  · rw [used, cell]
    exact h.known
  · rw [used]
    exact h.agree
  · rw [writers]
    exact h.cells
  · rw [writers, cells]
    exact h.active
  · rw [writers]
    exact h.owned
  · rw [writers]
    exact h.registered

theorem sound_allocate (h : Sound tracked s entries) (cell : Cell) :
    Sound tracked (s.allocate cell) entries where
  tokens := h.tokens
  issued := h.issued
  readers := h.readers
  known := fun u hu => Nat.lt_succ_of_lt (h.known u hu)
  agree := h.agree
  cells := h.cells
  active := fun w hw here => by
    have below : w.cell < s.cell := h.known _ (uses_writer hw)
    dsimp only [State.allocate]
    rw [Function.update_of_ne (Nat.ne_of_lt below)]
    exact h.active w hw here
  owned := h.owned
  registered := h.registered

theorem sound_reader (h : Sound tracked s entries) (cell : Cell) (key : CacheKey ι χ)
    (entry : CacheEntry) (reader : entry.reader = s.cell) :
    Sound tracked (s.allocate cell) ((key, entry) :: entries) := by
  have opened := sound_allocate h cell
  have used : ∀ u ∈ uses (s.allocate cell) ((key, entry) :: entries),
      u ∈ (entry.reader, key.key) :: uses (s.allocate cell) entries :=
    fun u hu => List.perm_middle.mem_iff.mp hu
  have fresh : ∀ u ∈ uses (s.allocate cell) entries, u.1 ≠ entry.reader := by
    intro u hu
    have below : u.1 < s.cell := h.known u hu
    omega
  have differs := agree_cons (entry.reader, key.key) opened.agree fun u hu same =>
    absurd same (fresh u hu)
  exact
    { tokens := opened.tokens
      issued := opened.issued
      readers := by
        rw [List.map_cons, List.nodup_cons]
        refine ⟨fun known => ?_, h.readers⟩
        obtain ⟨x, hx, same⟩ := List.mem_map.mp known
        exact fresh _ (uses_entry hx) same
      known := fun u hu => by
        rcases List.mem_cons.mp (used u hu) with rfl | hu
        · exact reader ▸ Nat.lt_succ_self s.cell
        · exact opened.known u hu
      agree := fun u hu v hv => differs u (used u hu) v (used v hv)
      cells := opened.cells
      active := opened.active
      owned := fun w hw here x hx same => by
        rcases List.mem_cons.mp hx with rfl | hx
        · exact absurd same.symm (fresh _ (uses_writer hw))
        · exact h.owned w hw here x hx same
      registered := fun w hw here live relative => by
        obtain ⟨x, hx, at_⟩ := h.registered w hw here live relative
        exact ⟨x, List.mem_cons_of_mem _ hx, at_⟩ }

/-- A new writer of a cell: of the tracked resource only where that is active, has none, and
registers it in its entry or has no entry. -/
theorem sound_write (h : Sound tracked s entries) {key : CacheKey ι χ} {cell : ℕ}
    (known : cell < s.cell) (agree : ∀ u ∈ uses s entries, u.1 = cell → u.2 = key.key)
    (free : key.key = tracked → ∀ w ∈ s.writers, w.cell ≠ cell)
    (active : key.key = tracked → isActive (s.cells cell).status = true)
    (owned : key.key = tracked → ∀ x ∈ entries, x.2.reader = cell → x.2.writer = some s.token)
    (registered : key.key = tracked → key.key.isAbsolute = false →
      ∃ x ∈ entries, x.1 = key ∧ x.2.reader = cell ∧ x.2.writer = some s.token) :
    Sound tracked (s.write key cell) entries where
  tokens := by
    rw [State.write, List.map_cons, List.nodup_cons]
    refine ⟨fun old => ?_, h.tokens⟩
    obtain ⟨w, hw, same⟩ := List.mem_map.mp old
    have := h.issued w hw
    dsimp only at same
    omega
  issued := List.forall_mem_cons.mpr
    ⟨Nat.lt_succ_self _, fun w hw => Nat.lt_succ_of_lt (h.issued w hw)⟩
  readers := h.readers
  known := List.forall_mem_cons.mpr ⟨known, h.known⟩
  agree := agree_cons (cell, key.key) h.agree agree
  cells := by
    refine List.forall_mem_cons.mpr ⟨fun here => ?_, fun w hw here => ?_⟩
    · exact List.forall_mem_cons.mpr
        ⟨fun _ => rfl, fun other hother same => absurd same (free here other hother)⟩
    · refine List.forall_mem_cons.mpr ⟨fun same => ?_, h.cells w hw here⟩
      have named : w.key.key = key.key := agree _ (uses_writer hw) same.symm
      exact absurd same.symm (free (named.symm.trans here) w hw)
  active := List.forall_mem_cons.mpr ⟨active, h.active⟩
  owned := List.forall_mem_cons.mpr ⟨owned, h.owned⟩
  registered := List.forall_mem_cons.mpr ⟨fun here _ => registered here, h.registered⟩

theorem sound_finish (h : Sound tracked s entries) (token : ℕ) (change : Cell → Cell) :
    Sound tracked (s.finish token change) entries := by
  unfold State.finish
  split
  · exact h
  · rename_i w found
    have member := List.mem_of_find?_eq_some found
    have own : w.token = token := by simpa using List.find?_some found
    have sub : (s.writers.filter fun other => decide (other.token ≠ token)).Sublist s.writers :=
      List.filter_sublist
    have used : ∀ u ∈ uses { s with
        cells := Function.update s.cells w.cell (change (s.cells w.cell))
        writers := s.writers.filter fun other => decide (other.token ≠ token) } entries,
        u ∈ uses s entries :=
      uses_subset (fun other hother => ⟨other, sub.subset hother, rfl, rfl⟩) rfl
        fun x hx => ⟨x, hx, rfl, rfl⟩
    constructor
    · exact h.tokens.sublist (sub.map _)
    · exact fun other hother => h.issued other (sub.subset hother)
    · exact h.readers
    · exact fun u hu => h.known u (used u hu)
    · exact fun u hu v hv => h.agree u (used u hu) v (used v hv)
    · exact fun other hother here third hthird =>
        h.cells other (sub.subset hother) here third (sub.subset hthird)
    · intro other hother here
      obtain ⟨live, differs⟩ := List.mem_filter.mp hother
      have apart : other.cell ≠ w.cell := by
        intro same
        have one := h.cells other live here w member same.symm
        exact of_decide_eq_true differs (one.symm.trans own)
      dsimp only
      rw [Function.update_of_ne apart]
      exact h.active other live here
    · exact fun other hother => h.owned other (sub.subset hother)
    · exact fun other hother => h.registered other (sub.subset hother)

theorem finish_cache (s : State ι χ) (token : ℕ) (change : Cell → Cell) :
    (s.finish token change).cache = s.cache := by
  unfold State.finish
  split <;> rfl

theorem sound_reopen (h : Sound tracked s entries) (cell : ℕ) :
    Sound tracked { s with cells := Function.update s.cells cell reopened } entries where
  tokens := h.tokens
  issued := h.issued
  readers := h.readers
  known := h.known
  agree := h.agree
  cells := h.cells
  active := fun w hw here => by
    by_cases same : w.cell = cell
    · dsimp only
      rw [same, Function.update_self]
      rfl
    · dsimp only
      rw [Function.update_of_ne same]
      exact h.active w hw here
  owned := h.owned
  registered := h.registered

theorem sound_retoken {rest : List (CacheKey ι χ × CacheEntry)} {key : CacheKey ι χ}
    {hit : CacheEntry} (h : Sound tracked s ((key, hit) :: rest))
    (free : ∀ w ∈ s.writers, w.key.key = tracked → w.cell ≠ hit.reader) (writer : Option ℕ) :
    Sound tracked s ((key, { hit with writer := writer }) :: rest) where
  tokens := h.tokens
  issued := h.issued
  readers := h.readers
  known := h.known
  agree := h.agree
  cells := h.cells
  active := h.active
  owned := fun w hw here x hx same => by
    rcases List.mem_cons.mp hx with rfl | hx
    · exact absurd same.symm (free w hw here)
    · exact h.owned w hw here x (List.mem_cons_of_mem _ hx) same
  registered := fun w hw here live relative => by
    obtain ⟨x, hx, key', reader, token⟩ := h.registered w hw here live relative
    rcases List.mem_cons.mp hx with rfl | hx
    · exact absurd reader.symm (free w hw here)
    · exact ⟨x, List.mem_cons_of_mem _ hx, key', reader, token⟩

theorem sound_perm (h : Sound tracked s entries) (perm : entries'.Perm entries) :
    Sound tracked s entries' := by
  refine sound_replace h ((perm.map _).nodup_iff.mpr h.readers) (fun x hx => ?_) fun y hy _ => ?_
  · exact ⟨x, perm.mem_iff.mp hx, rfl, rfl, rfl⟩
  · exact ⟨y, perm.mem_iff.mpr hy, rfl, rfl, rfl⟩

theorem trades_sound (h : Sound tracked s entries) {o : Outcome ι χ}
    (trades : Trades s entries o) :
    Sound tracked o.state o.state.cache.entries ∧ SparesWriters tracked o := by
  refine ⟨?_, trades_spares h trades⟩
  refine sound_congr (sound_trades h trades) ?_ ?_ ?_ ?_ ?_ <;> rw [trades.rest]

theorem quiet_sound (h : Sound tracked s s.cache.entries) :
    Sound tracked (Outcome.quiet s).state (Outcome.quiet s).state.cache.entries ∧
      SparesWriters tracked (Outcome.quiet s) := trades_sound h (quiet_trades s)

theorem sound_read (h : Sound tracked s entries) {key : CacheKey ι χ} {cell : ℕ}
    (known : cell < s.cell) (agree : ∀ u ∈ uses s entries, u.1 = cell → u.2 = key.key) :
    Sound tracked (s.read key cell) entries := by
  have used : ∀ u ∈ uses (s.read key cell) entries, u ∈ (cell, key.key) :: uses s entries := by
    intro u hu
    rcases List.mem_append.mp hu with hu | hu
    · rcases List.mem_append.mp hu with hu | hu
      · exact List.mem_cons_of_mem _ (List.mem_append_left _ (List.mem_append_left _ hu))
      · rcases List.mem_cons.mp hu with rfl | hu
        · exact List.mem_cons_self
        · exact List.mem_cons_of_mem _ (List.mem_append_left _ (List.mem_append_right _ hu))
    · exact List.mem_cons_of_mem _ (List.mem_append_right _ hu)
  have one := agree_cons (cell, key.key) h.agree agree
  exact
    { tokens := h.tokens
      issued := h.issued
      readers := h.readers
      known := fun u hu => by
        rcases List.mem_cons.mp (used u hu) with rfl | hu
        · exact known
        · exact h.known u hu
      agree := fun u hu v hv => one u (used u hu) v (used v hv)
      cells := h.cells
      active := h.active
      owned := h.owned
      registered := h.registered }

theorem sound_reread (h : Sound tracked s entries) {key : CacheKey ι χ} {cell : ℕ}
    (used : (cell, key.key) ∈ uses s entries) : Sound tracked (s.read key cell) entries :=
  sound_read h (h.known _ used) fun u hu same => h.agree u hu _ used same

theorem sound_opened (h : Sound tracked s entries) (cell : Cell) (key : CacheKey ι χ) :
    Sound tracked ((s.allocate cell).read key s.cell) entries :=
  sound_read (sound_allocate h cell) (Nat.lt_succ_self _) fun u hu same =>
    absurd same (Nat.ne_of_lt (h.known u hu))

theorem start_sound (policy : CachePolicy) (tracked : ResourceKey) :
    Sound tracked (start policy : State ι χ) (start policy : State ι χ).cache.entries where
  tokens := List.nodup_nil
  issued := fun _ hw => absurd hw List.not_mem_nil
  readers := List.nodup_nil
  known := fun _ hu => absurd hu List.not_mem_nil
  agree := fun _ hu => absurd hu List.not_mem_nil
  cells := fun _ hw => absurd hw List.not_mem_nil
  active := fun _ hw => absurd hw List.not_mem_nil
  owned := fun _ hw => absurd hw List.not_mem_nil
  registered := fun _ hw => absurd hw List.not_mem_nil

section Calls

variable [DecidableEq ι] [DecidableEq χ]

theorem sound_forget (h : Sound tracked s s.cache.entries) (gone : ResourceKey → Bool) :
    Sound tracked (s.forget gone) (s.forget gone).cache.entries := by
  obtain ⟨flag, hflag⟩ : ∃ flag : CachedWriter ι χ → CachedWriter ι χ,
    (fun w => if gone w.key.key then { w with removed := true } else w) = flag := ⟨_, rfl⟩
  have flagged : ∀ w, (flag w).token = w.token ∧ (flag w).cell = w.cell ∧ (flag w).key = w.key ∧
      ((flag w).removed = false → w.removed = false ∧ gone w.key.key = false) := by
    intro w
    rw [← hflag]
    dsimp only
    cases hg : gone w.key.key with
    | true => exact ⟨rfl, rfl, rfl, fun live => by cases live⟩
    | false => exact ⟨rfl, rfl, rfl, fun live => ⟨live, rfl⟩⟩
  have forgotten : s.forget gone = { s with
      cache := s.cache.popAll ((s.cache.entries.map Prod.fst).filter fun k => gone k.key)
      writers := s.writers.map flag } := by
    rw [← hflag]
    rfl
  rw [forgotten]
  have sub := popAll_sublist s.cache ((s.cache.entries.map Prod.fst).filter fun k => gone k.key)
  have used : ∀ u ∈ uses { s with
      cache := s.cache.popAll ((s.cache.entries.map Prod.fst).filter fun k => gone k.key)
      writers := s.writers.map flag }
      (s.cache.popAll ((s.cache.entries.map Prod.fst).filter fun k => gone k.key)).entries,
      u ∈ uses s s.cache.entries := by
    refine uses_subset (fun w hw => ?_) rfl fun x hx => ⟨x, sub.subset hx, rfl, rfl⟩
    obtain ⟨v, hv, rfl⟩ := List.mem_map.mp hw
    exact ⟨v, hv, (flagged v).2.1.symm, (flagged v).2.2.1.symm⟩
  constructor
  · rw [List.map_map]
    exact (List.map_congr_left fun w _ => (flagged w).1) ▸ h.tokens
  · refine List.forall_mem_map.mpr fun w hw => ?_
    rw [(flagged w).1]
    exact h.issued w hw
  · exact h.readers.sublist (sub.map _)
  · exact fun u hu => h.known u (used u hu)
  · exact fun u hu v hv => h.agree u (used u hu) v (used v hv)
  · refine List.forall_mem_map.mpr fun w hw => ?_
    rw [(flagged w).1, (flagged w).2.1, (flagged w).2.2.1]
    refine fun here => List.forall_mem_map.mpr fun other hother => ?_
    rw [(flagged other).1, (flagged other).2.1]
    exact h.cells w hw here other hother
  · refine List.forall_mem_map.mpr fun w hw => ?_
    rw [(flagged w).2.1, (flagged w).2.2.1]
    exact h.active w hw
  · refine List.forall_mem_map.mpr fun w hw => ?_
    rw [(flagged w).1, (flagged w).2.1, (flagged w).2.2.1]
    exact fun here x hx => h.owned w hw here x (sub.subset hx)
  · refine List.forall_mem_map.mpr fun w hw here live relative => ?_
    obtain ⟨token, cell, key, named⟩ := flagged w
    obtain ⟨live, stays⟩ := named live
    rw [key] at here relative
    obtain ⟨x, hx, at_, reader, writer⟩ := h.registered w hw here live relative
    refine ⟨x, mem_popAll.mpr ⟨hx, fun out => ?_⟩, at_.trans key.symm, reader.trans cell.symm, ?_⟩
    · have := (List.mem_filter.mp out).2
      rw [at_, stays] at this
      cases this
    · rw [token]
      exact writer

theorem sound_hit (h : Sound tracked s s.cache.entries) {key : CacheKey ι χ}
    {hit : CacheEntry} {cache : Cache ι χ} (used : (s.cache.getMut key fun entry =>
      { entry with hits := saturatingAdd entry.hits 1 }) = some (hit, cache)) :
    ∃ rest, cache.entries = (key, hit) :: rest ∧ Sound tracked s ((key, hit) :: rest) := by
  obtain ⟨old, rest, perm, sub, rfl, entries⟩ := getMut_spec used
  refine ⟨rest, entries, sound_replace (sound_perm h perm.symm) ?_ ?_ ?_⟩
  · have := (perm.map fun x => x.2.reader).nodup_iff.mp h.readers
    exact this
  · intro x hx
    rcases List.mem_cons.mp hx with rfl | hx
    · exact ⟨(key, old), List.mem_cons_self, rfl, rfl, rfl⟩
    · exact ⟨x, List.mem_cons_of_mem _ hx, rfl, rfl, rfl⟩
  · intro y hy _
    rcases List.mem_cons.mp hy with rfl | hy
    · exact ⟨_, List.mem_cons_self, rfl, rfl, rfl⟩
    · exact ⟨y, List.mem_cons_of_mem _ hy, rfl, rfl, rfl⟩

theorem insert_reader_sound (policy : CachePolicy) (h : Sound tracked s s.cache.entries)
    {key : CacheKey ι χ} (absent : ∀ x ∈ s.cache.entries, x.1 ≠ key) (cell : Cell)
    {o : Outcome ι χ} (ho : insertEntry policy ((s.allocate cell).read key s.cell) key
      { reader := s.cell, hits := 1, writer := none } = o) :
    Sound tracked o.state o.state.cache.entries ∧ SparesWriters tracked o := by
  have entered := sound_reader h cell key { reader := s.cell, hits := 1, writer := none } rfl
  have opened := sound_reread entered (uses_entry List.mem_cons_self)
  exact trades_sound opened
    (ho ▸ insert_trades policy (s := (s.allocate cell).read key s.cell) absent _)

theorem insert_writer_sound (policy : CachePolicy) (h : Sound tracked s s.cache.entries)
    {key : CacheKey ι χ} (absent : ∀ x ∈ s.cache.entries, x.1 ≠ key) {o : Outcome ι χ}
    (ho : insertEntry policy (((s.allocate Acquired.pending.cell).write key s.cell).read key s.cell)
      key { reader := s.cell, hits := 1, writer := some s.token } = o) :
    Sound tracked o.state o.state.cache.entries ∧ SparesWriters tracked o := by
  obtain ⟨entry, hentry⟩ : ∃ entry : CacheEntry,
    { reader := s.cell, hits := 1, writer := some s.token } = entry := ⟨_, rfl⟩
  rw [hentry] at ho
  have reader : entry.reader = s.cell := hentry ▸ rfl
  have token : entry.writer = some s.token := hentry ▸ rfl
  have opened := sound_reader h Acquired.pending.cell key entry reader
  have entered : (s.cell, key.key) ∈
      uses (s.allocate Acquired.pending.cell) ((key, entry) :: s.cache.entries) :=
    reader ▸ uses_entry (x := (key, entry)) List.mem_cons_self
  have written : Sound tracked ((s.allocate Acquired.pending.cell).write key s.cell)
      ((key, entry) :: s.cache.entries) := by
    refine sound_write opened (opened.known _ entered)
      (fun u hu same => opened.agree u hu _ entered same) (fun _ w hw same => ?_) (fun _ => ?_)
      (fun _ x hx same => ?_) fun _ _ => ⟨_, List.mem_cons_self, rfl, reader, token⟩
    · exact Nat.ne_of_lt (h.known _ (uses_writer hw)) same
    · dsimp only [State.allocate]
      rw [Function.update_self]
      rfl
    · rcases List.mem_cons.mp hx with rfl | hx
      · exact token
      · exact absurd same (Nat.ne_of_lt (h.known _ (uses_entry hx)))
  have reread : Sound tracked (((s.allocate Acquired.pending.cell).write key s.cell).read key s.cell)
      ((key, entry) :: s.cache.entries) := sound_reread written
    (reader ▸ uses_entry (x := (key, entry)) List.mem_cons_self)
  exact trades_sound reread (ho ▸ insert_trades policy
    (s := ((s.allocate Acquired.pending.cell).write key s.cell).read key s.cell) absent entry)

theorem reactivated_sound {key : CacheKey ι χ} {hit : CacheEntry} {cache : Cache ι χ}
    {rest : List (CacheKey ι χ × CacheEntry)} (entries : cache.entries = (key, hit) :: rest)
    (h : Sound tracked s ((key, hit) :: rest)) (idle : isWriting s.writers hit = false) :
    Sound tracked ({ s with
      cache := (cache.push key { hit with writer := some s.token }).2
      cells := Function.update s.cells hit.reader reopened }.write key hit.reader)
      (cache.push key { hit with writer := some s.token }).2.entries := by
  have used : (hit.reader, key.key) ∈ uses s ((key, hit) :: rest) :=
    uses_entry (x := (key, hit)) List.mem_cons_self
  have pushed := push_held (v := { hit with writer := some s.token }) (.of_eq entries)
  have free : ∀ w ∈ s.writers, w.key.key = tracked → w.cell ≠ hit.reader := by
    intro w hw here same
    have token := h.owned w hw here (key, hit) List.mem_cons_self same.symm
    rw [isWriting, List.any_eq_false] at idle
    exact idle w hw (decide_eq_true token)
  have reopens := sound_perm (sound_reopen (sound_retoken h free (some s.token)) hit.reader) pushed
  have same : Sound tracked { s with
      cache := (cache.push key { hit with writer := some s.token }).2
      cells := Function.update s.cells hit.reader reopened }
      (cache.push key { hit with writer := some s.token }).2.entries :=
    sound_congr reopens rfl rfl rfl rfl rfl
  have entered := pushed.mem_iff.mpr List.mem_cons_self
  have still : (hit.reader, key.key) ∈ uses { s with
      cache := (cache.push key { hit with writer := some s.token }).2
      cells := Function.update s.cells hit.reader reopened }
      (cache.push key { hit with writer := some s.token }).2.entries :=
    uses_entry (x := (key, { hit with writer := some s.token })) entered
  refine sound_write same (same.known _ still) (fun u hu at_ => same.agree u hu _ still at_)
    (fun here w hw at_ => ?_) (fun _ => ?_) (fun _ x hx at_ => ?_)
    fun _ _ => ⟨_, entered, rfl, rfl, rfl⟩
  · have named : w.key.key = key.key := h.agree _ (uses_writer hw) _ used at_
    exact free w hw (named.trans here) at_
  · dsimp only
    rw [Function.update_self]
    rfl
  · rcases List.mem_cons.mp (pushed.mem_iff.mp hx) with rfl | hx
    · rfl
    · have once := List.nodup_cons.mp h.readers
      exact absurd (List.mem_map.mpr ⟨x, hx, at_⟩) once.1

theorem acquire_sound (policy : CachePolicy) (h : Sound tracked s s.cache.entries)
    (key : CacheKey ι χ) (reactivates : Bool) (inner : Option Acquired) {o : Outcome ι χ}
    (ho : acquireResource policy s key reactivates inner = o) :
    Sound tracked o.state o.state.cache.entries ∧ SparesWriters tracked o := by
  unfold acquireResource at ho
  split at ho
  · rename_i absolute
    cases inner with
    | none => exact ho ▸ quiet_sound h
    | some acq =>
      cases acq with
      | pending =>
        have fresh : ∀ u ∈ uses s s.cache.entries, u.1 ≠ s.cell := fun u hu =>
          Nat.ne_of_lt (h.known u hu)
        have written : Sound tracked ((s.allocate Acquired.pending.cell).write key s.cell)
            s.cache.entries := by
          refine sound_write (sound_allocate h _) (Nat.lt_succ_self _)
            (fun u hu same => absurd same (fresh u hu)) (fun _ w hw => fresh _ (uses_writer hw))
            (fun _ => ?_) (fun _ x hx same => absurd same (fresh _ (uses_entry hx)))
            fun _ relative => ?_
          · dsimp only [State.allocate]
            rw [Function.update_self]
            rfl
          · rw [absolute] at relative
            cases relative
        refine ho ▸ quiet_sound (sound_reread written ?_)
        exact uses_writer (w := ⟨key, s.cell, s.token, false⟩) List.mem_cons_self
      | ready cell => exact ho ▸ quiet_sound (sound_opened h cell key)
      | joined cell => exact ho ▸ quiet_sound (sound_opened h cell key)
  · split at ho
    · rename_i hit cache hits
      obtain ⟨rest, held, touched⟩ := sound_hit h hits
      have used : Sound tracked { s with cache := cache } cache.entries :=
        held ▸ sound_congr touched rfl rfl rfl rfl rfl
      dsimp only at ho
      split at ho
      · refine ho ▸ quiet_sound (sound_reread used ?_)
        exact uses_entry (x := (key, hit)) (held ▸ List.mem_cons_self)
      · rename_i idle
        simp only [Bool.or_eq_true, not_or, Bool.not_eq_true] at idle
        split at ho
        · refine ho ▸ quiet_sound (sound_reread (reactivated_sound held touched idle.1) ?_)
          exact uses_writer (w := ⟨key, hit.reader, s.token, false⟩) List.mem_cons_self
        · exact ho ▸ quiet_sound used
    · rename_i missed
      have absent := getMut_none missed
      cases inner with
      | none => exact ho ▸ quiet_sound h
      | some acq =>
        cases acq with
        | pending => exact insert_writer_sound policy h absent ho
        | ready cell => exact insert_reader_sound policy h absent cell ho
        | joined cell => exact insert_reader_sound policy h absent cell ho

theorem open_sound (policy : CachePolicy) (h : Sound tracked s s.cache.entries)
    (key : CacheKey ι χ) (inner : Option Cell) {o : Outcome ι χ}
    (ho : openResource policy s key inner = o) :
    Sound tracked o.state o.state.cache.entries ∧ SparesWriters tracked o := by
  unfold openResource at ho
  split at ho
  · cases inner with
    | none => exact ho ▸ quiet_sound h
    | some cell => exact ho ▸ quiet_sound (sound_opened h cell key)
  · dsimp only at ho
    split at ho
    · rename_i hit cache used
      have touched : (s.cache.getMut key fun entry =>
          { entry with hits := saturatingAdd entry.hits 1 }) = some (hit, cache) := by
        split at used
        · cases used
        · exact used
      obtain ⟨rest, held, hits⟩ := sound_hit h touched
      have kept : Sound tracked { s with cache := cache } cache.entries :=
        held ▸ sound_congr hits rfl rfl rfl rfl rfl
      refine ho ▸ quiet_sound (sound_reread kept ?_)
      exact uses_entry (x := (key, hit)) (held ▸ List.mem_cons_self)
    · rename_i missed
      split at ho
      · rename_i x found
        split at found
        · have named : x.1.key = key.key := by
            have chosen := List.find?_some found
            rw [Bool.and_eq_true, decide_eq_true_eq] at chosen
            exact chosen.1
          refine ho ▸ quiet_sound (sound_reread h ?_)
          exact named ▸ uses_entry (List.mem_of_find?_eq_some found)
        · cases found
      · cases inner with
        | none => exact ho ▸ quiet_sound h
        | some cell =>
          dsimp only at ho
          cases dead : (s.cache.peek key).any s.isDead with
          | true =>
            rw [dead, if_pos rfl] at ho
            exact ho ▸ quiet_sound (sound_opened h cell key)
          | false =>
            rw [dead, if_neg Bool.false_ne_true] at ho missed
            exact insert_reader_sound policy h (getMut_none missed) cell ho

theorem step_sound (policy : CachePolicy) (h : Sound tracked s s.cache.entries)
    {a : Action ι χ} (enabled : Enabled s a) (plain : NotReactivated tracked s a) :
    Sound tracked (step policy s a).state (step policy s a).state.cache.entries ∧
      SparesWriters tracked (step policy s a) := by
  have finished : ∀ (token : ℕ) (change : Cell → Cell),
      Sound tracked (s.finish token change) (s.finish token change).cache.entries := by
    intro token change
    rw [finish_cache]
    exact sound_finish h token change
  cases a with
  | acquire key reactivates inner => exact acquire_sound policy h key reactivates inner rfl
  | «open» key inner => exact open_sound policy h key inner rfl
  | commit token finalLen len =>
    exact trades_sound (finished token _) (enforce_trades policy _)
  | commitFails token left => exact quiet_sound (finished token _)
  | fail token reason => exact quiet_sound (finished token _)
  | abandon token => exact quiet_sound (finished token _)
  | retain key => exact quiet_sound (sound_congr h rfl rfl rfl rfl rfl)
  | release key =>
    refine trades_sound (s := { s with pinned := s.pinned.erase key })
      (sound_congr h rfl rfl rfl rfl rfl) (enforce_trades policy _)
  | reactivate reader reactivates =>
    rw [step]
    split
    · rename_i minted
      have other : reader.key.key ≠ tracked := fun here => Bool.false_ne_true
        ((plain here).symm.trans minted)
      have used : (reader.cell, reader.key.key) ∈ uses s s.cache.entries := uses_reader enabled
      refine quiet_sound (sound_write (sound_reopen h reader.cell) (h.known _ used)
        (fun u hu same => h.agree u hu _ used same) (fun here => ?_) (fun here => ?_)
        (fun here => ?_) fun here => ?_)
      all_goals exact absurd here other
    · exact quiet_sound h
  | removeResource key =>
    have forgotten := sound_forget h fun k => decide (k = key)
    exact quiet_sound (sound_congr forgotten rfl rfl rfl rfl rfl)
  | deleteAsset root =>
    exact quiet_sound (sound_forget h fun k => decide (k.assetRoot = some root))

/-- Every call of every run keeps to the discipline of `Disciplined`. As long as no reader of a
resource is reactivated, each cache key of it has at most one live writer whose resource was not
removed, and no entry of it is displaced while it has a live writer. -/
theorem handle_cache_disciplined (policy : CachePolicy) (as : List (Action ι χ))
    (hv : (machine policy).ValidTrace (start policy) as) :
    (machine policy).Along (fun s a => Disciplined policy (step policy s a)) (start policy) as ∧
      ∀ tracked, (machine policy).Along (NotReactivated tracked) (start policy) as →
        (machine policy).Throughout (SingleWriter tracked) (start policy) as ∧
          (machine policy).Along (fun s a => SparesWriters tracked (step policy s a))
            (start policy) as := by
  constructor
  · exact along_of_invariant (I := fun _ => True)
      (fun s a _ _ _ => ⟨step_disciplined policy s a, trivial⟩) trivial hv
      (along_trivial _ _)
  · intro tracked plain
    have begins : Sound tracked (start policy : State ι χ)
        (start policy : State ι χ).cache.entries := start_sound policy tracked
    have sound := throughout_of_along (P := fun s : State ι χ => Sound tracked s s.cache.entries)
      (fun s a h he g => (step_sound policy h he g).1) begins hv plain
    refine ⟨throughout_imp (fun s h => sound_single h) sound, ?_⟩
    exact along_of_invariant (I := fun s : State ι χ => Sound tracked s s.cache.entries)
      (fun s a h he g => ⟨(step_sound policy h he g).2, (step_sound policy h he g).1⟩) begins hv
      plain

end Calls

def segment : ResourceKey := .relative "track" "segment"

def plainKey : CacheKey ℕ ℕ := ⟨segment, none, none⟩

def processedKey : CacheKey ℕ ℕ := ⟨segment, none, some 1⟩

def narrow : CachePolicy := ⟨1, by decide, some 8, true⟩

def other : CacheKey ℕ ℕ := ⟨.relative "track" "other", none, none⟩

/-- A segment is written, retained, committed over the byte limit, and released; before that a
reader of another one is reactivated. -/
def releasedSegment : List (Action ℕ ℕ) :=
  [.acquire other true (some .pending), .commit 0 (some 1) (some 1), .reactivate ⟨other, 0⟩ true,
    .acquire plainKey true (some .pending), .retain segment, .commit 2 (some 9) (some 9),
    .release segment]

theorem handle_cache_disciplined_released :
    (machine narrow).Along (fun s a => Disciplined narrow (step narrow s a)) (start narrow)
        releasedSegment ∧
      (machine narrow).Throughout (SingleWriter segment) (start narrow) releasedSegment ∧
      (step narrow ((machine narrow).runTrace (start narrow) (releasedSegment.take 6))
        (.release segment)).reported = [segment] := by
  obtain ⟨disciplined, writers⟩ := handle_cache_disciplined narrow releasedSegment
    (by decide)
  have plain : (machine narrow).Along (NotReactivated segment) (start narrow) releasedSegment :=
    ⟨trivial, trivial, fun here => absurd here (by decide), trivial, trivial, trivial, trivial,
      trivial⟩
  exact ⟨disciplined, (writers segment plain).1, rfl⟩

/-- A segment removed behind its writer gets a second one; and one cached under two contexts is
reported when the first entry is displaced, with the other still cached. -/
theorem removed_and_reported :
    (((machine narrow).runTrace (start narrow) [.acquire plainKey true (some .pending),
        .removeResource segment, .acquire plainKey true (some .pending)]).writers.map
          fun w => (w.key, w.token)) = [(plainKey, 1), (plainKey, 0)] ∧
      (step narrow ((machine narrow).runTrace (start narrow)
        [.acquire plainKey true (some .pending), .commit 0 (some 4) (some 4)])
        (.acquire processedKey true (some .pending))).reported = [segment] ∧
      ((step narrow ((machine narrow).runTrace (start narrow)
        [.acquire plainKey true (some .pending), .commit 0 (some 4) (some 4)])
        (.acquire processedKey true (some .pending))).state.cache.entries.map Prod.fst) =
          [processedKey] := ⟨rfl, rfl, rfl⟩

end HandleCache

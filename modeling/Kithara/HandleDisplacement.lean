import Kithara.HandleCache

/-! What a call of the handle cache displaces: no retained entry and none whose resource is active,
enough for the capacity and the byte limit to hold, and nothing it does not report. -/
namespace HandleCache

open Extraction RecencyCache TransitionSystem

variable {ι χ : Type}

variable {cells : ℕ → Cell} {pinned : Finset ResourceKey}

theorem leastHit_mem {l : List (CacheKey ι χ × CacheEntry)} {key : CacheKey ι χ}
    (h : leastHit l = some key) : ∃ x ∈ l, x.1 = key := by
  cases l with
  | nil => cases h
  | cons first rest =>
    have inside : ∀ (rest : List (CacheKey ι χ × CacheEntry)) (best : CacheKey ι χ × CacheEntry),
        rest.foldl (fun best candidate =>
          if candidate.2.hits ≤ best.2.hits then candidate else best) best ∈ best :: rest := by
      intro rest
      induction rest with
      | nil => exact fun best => List.mem_cons_self
      | cons candidate rest ih =>
        intro best
        rw [List.foldl_cons]
        split
        · exact List.mem_cons_of_mem _ (ih candidate)
        · rcases List.mem_cons.mp (ih best) with same | later
          · rw [same]
            exact List.mem_cons_self
          · exact List.mem_cons_of_mem _ (List.mem_cons_of_mem _ later)
    exact ⟨_, inside rest first, Option.some.inj h⟩

theorem leastHit_none {l : List (CacheKey ι χ × CacheEntry)} (h : leastHit l = none) : l = [] := by
  cases l with
  | nil => rfl
  | cons first rest => cases h

def Leaves (c : Cache ι χ) (x : CacheKey ι χ × CacheEntry) (c' : Cache ι χ) : Prop :=
  c.entries.Perm (x :: c'.entries) ∧ c'.entries.Sublist c.entries

/-- Taking entries one after another: the ones taken pass the test, the others keep their order,
and at the end there is none to take. -/
theorem exhaust_leaves {take : Cache ι χ → Option ((CacheKey ι χ × CacheEntry) × Cache ι χ)}
    {p : CacheKey ι χ × CacheEntry → Bool}
    (h : ∀ c x c', take c = some (x, c') → Leaves c x c' ∧ p x = true) (c : Cache ι χ) :
    c.entries.Perm ((exhaust take c.entries.length c).1 ++
        (exhaust take c.entries.length c).2.entries) ∧
      (exhaust take c.entries.length c).2.entries.Sublist c.entries ∧
      (∀ x ∈ (exhaust take c.entries.length c).1, p x = true) ∧
      take (exhaust take c.entries.length c).2 = none := by
  refine ⟨?_, ?_, ?_, ?_⟩
  · have content := exhaust_content take (fun c : Cache ι χ => (c.entries : Multiset _)) id
      (fun c x c' ht => Multiset.coe_eq_coe.mpr (h c x c' ht).1.1) c.entries.length c
    rw [List.map_id, Multiset.coe_add] at content
    exact Multiset.coe_eq_coe.mp content
  · exact (exhaust_forall take (p := fun c' : Cache ι χ => c'.entries.Sublist c.entries)
      (q := fun _ => True) (fun c₁ x c₂ sub ht => ⟨trivial, (h c₁ x c₂ ht).1.2.trans sub⟩)
      c.entries.length (.refl _)).2
  · exact (exhaust_forall take (p := fun _ => True) (q := fun x => p x = true)
      (fun c₁ x c₂ _ ht => ⟨(h c₁ x c₂ ht).2, trivial⟩) c.entries.length trivial).1
  · refine exhaust_none take (fun c : Cache ι χ => c.entries.length) (fun c x c' ht => ?_) le_rfl
    have := (h c x c' ht).1.1.length_eq
    rw [List.length_cons] at this
    omega

theorem grown_spec (c : Cache ι χ) :
    (grown c).entries = c.entries ∧ c.entries.length < (grown c).cap := by
  unfold grown
  split
  · exact ⟨List.take_of_length_le (Nat.le_succ _), Nat.lt_succ_self _⟩
  · exact ⟨rfl, by omega⟩

theorem length_evictable (cells : ℕ → Cell) (pinned : Finset ResourceKey)
    (l : List (CacheKey ι χ × CacheEntry)) :
    (l.filter (evictable cells pinned)).length +
      (l.filter fun x => !evictable cells pinned x).length = l.length := by
  induction l with
  | nil => rfl
  | cons x l ih =>
    cases hx : evictable cells pinned x with
    | true => simp [hx, ← ih, Nat.add_right_comm]
    | false => simp [hx, ← ih, Nat.add_assoc]

def Spent (cells : ℕ → Cell) (pinned : Finset ResourceKey) (x : CacheKey ι χ × CacheEntry) : Prop :=
  isActive (cells x.2.reader).status = false ∧ x.1.key ∉ pinned

theorem evictable_spent {x : CacheKey ι χ × CacheEntry} (h : evictable cells pinned x = true) :
    Spent cells pinned x := by
  simpa [evictable, isProtectedResource, Spent] using h

theorem trimmable_spent {x : CacheKey ι χ × CacheEntry} (h : trimmable cells pinned x = true) :
    Spent cells pinned x := by
  unfold trimmable at h
  split at h
  · cases h
  · rename_i bytes hb
    simp only [Bool.not_eq_true', Bool.or_eq_false_iff, decide_eq_false_iff_not] at h
    refine ⟨?_, h.2⟩
    unfold committedBytes at hb
    split at hb
    · rename_i hs
      rw [hs]
      rfl
    · cases hb

theorem mem_distinctKeys {displaced : List (CacheKey ι χ × CacheEntry)} {k : ResourceKey} :
    k ∈ distinctKeys displaced ↔ ∃ x ∈ displaced, x.1.key = k := by
  have general : ∀ (displaced : List (CacheKey ι χ × CacheEntry)) (keys : List ResourceKey),
      k ∈ displaced.foldl (fun keys x => if x.1.key ∈ keys then keys else keys ++ [x.1.key]) keys ↔
        k ∈ keys ∨ ∃ x ∈ displaced, x.1.key = k := by
    intro displaced
    induction displaced with
    | nil => simp
    | cons x displaced ih =>
      intro keys
      rw [List.foldl_cons, ih]
      by_cases known : x.1.key ∈ keys
      · rw [if_pos known]
        constructor
        · exact fun h => h.imp_right fun ⟨y, hy, hk⟩ => ⟨y, List.mem_cons_of_mem _ hy, hk⟩
        · rintro (h | ⟨y, hy, rfl⟩)
          · exact .inl h
          · rcases List.mem_cons.mp hy with rfl | hy
            · exact .inl known
            · exact .inr ⟨y, hy, rfl⟩
      · rw [if_neg known, List.mem_append, List.mem_singleton, or_assoc]
        refine or_congr_right ?_
        constructor
        · rintro (rfl | ⟨y, hy, hk⟩)
          · exact ⟨x, List.mem_cons_self, rfl⟩
          · exact ⟨y, List.mem_cons_of_mem _ hy, hk⟩
        · rintro ⟨y, hy, rfl⟩
          rcases List.mem_cons.mp hy with rfl | hy
          · exact .inl rfl
          · exact .inr ⟨y, hy, rfl⟩
  rw [distinctKeys, general]
  exact or_iff_right List.not_mem_nil

/-- From the entries given, the call displaced spent ones, and changed nothing else. -/
structure Trades (s : State ι χ) (entries : List (CacheKey ι χ × CacheEntry)) (o : Outcome ι χ) :
    Prop where
  rest : o.state = { s with cache := o.state.cache }
  parts : entries.Perm (o.displaced ++ o.state.cache.entries)
  order : o.state.cache.entries.Sublist entries
  spent : ∀ x ∈ o.displaced, Spent s.cells s.pinned x

/-- What every call keeps to. Nothing it displaces is retained or active; with an entry it inserts
there are no more displaceable entries than the capacity; once it enforced the byte limit, what is
not retained is within it or empty. A volatile cache reports only keys of displaced entries, and
each key whose last entry is displaced. -/
structure Disciplined (policy : CachePolicy) (o : Outcome ι χ) : Prop where
  spent : ∀ x ∈ o.displaced, Spent o.state.cells o.state.pinned x
  room : o.inserted = true →
    (o.state.cache.entries.filter (evictable o.state.cells o.state.pinned)).length ≤ policy.capacity
  limit : o.enforced = true → ∀ maxBytes, policy.maxBytes = some maxBytes →
    retainedBytes o.state.cells o.state.pinned o.state.cache ≤ maxBytes ∨
      ∀ x ∈ o.state.cache.entries, trimmable o.state.cells o.state.pinned x = false
  reports : policy.volatile = true → ∀ k,
    (k ∈ o.reported → ∃ x ∈ o.displaced, x.1.key = k) ∧
      ((∃ x ∈ o.displaced, x.1.key = k) → (∀ y ∈ o.state.cache.entries, y.1.key ≠ k) →
        k ∈ o.reported)

theorem quiet_trades (s : State ι χ) : Trades s s.cache.entries (.quiet s) where
  rest := rfl
  parts := .refl _
  order := .refl _
  spent := fun x hx => by cases hx

theorem quiet_disciplined (policy : CachePolicy) (s : State ι χ) :
    Disciplined policy (.quiet s) where
  spent := fun x hx => by cases hx
  room := fun h => by cases h
  limit := fun h => by cases h
  reports := fun _ k => by
    refine ⟨fun h => absurd h List.not_mem_nil, ?_⟩
    rintro ⟨x, hx, -⟩
    cases hx

section Calls

variable [DecidableEq ι] [DecidableEq χ]

/-- The victim among the entries that pass a test is one of them. -/
theorem victim_some {c c' : Cache ι χ} {p : CacheKey ι χ × CacheEntry → Bool}
    {x : CacheKey ι χ × CacheEntry}
    (h : (leastHit (c.entries.filter p)).bind (popKey c) = some (x, c')) :
    Leaves c x c' ∧ p x = true := by
  obtain ⟨key, hv, popped⟩ := Option.bind_eq_some_iff.mp h
  obtain ⟨y, hy, rfl⟩ := leastHit_mem hv
  obtain ⟨member, passes⟩ := List.mem_filter.mp hy
  obtain ⟨left, hpop⟩ := pop_mem (c := c) (k := y.1) (v := y.2) member
  rw [popKey, hpop] at popped
  cases popped
  exact ⟨pop_spec hpop, passes⟩

theorem victim_none {c : Cache ι χ} {p : CacheKey ι χ × CacheEntry → Bool}
    (h : (leastHit (c.entries.filter p)).bind (popKey c) = none) : c.entries.filter p = [] := by
  cases hv : leastHit (c.entries.filter p) with
  | none => exact leastHit_none hv
  | some key =>
    obtain ⟨y, hy, rfl⟩ := leastHit_mem hv
    obtain ⟨left, hpop⟩ := pop_mem (c := c) (k := y.1) (v := y.2) (List.mem_filter.mp hy).1
    rw [hv, Option.bind_some, popKey, hpop] at h
    cases h

theorem displaceOne_some {effective : ℕ} {c c' : Cache ι χ} {x : CacheKey ι χ × CacheEntry}
    (h : displaceOne cells pinned effective c = some (x, c')) :
    Leaves c x c' ∧ evictable cells pinned x = true := by
  unfold displaceOne at h
  split at h
  · exact victim_some h
  · cases h

theorem displaceOne_none {effective : ℕ} {c : Cache ι χ}
    (h : displaceOne cells pinned effective c = none) :
    c.entries.length < effective ∨ c.entries.filter (evictable cells pinned) = [] := by
  unfold displaceOne at h
  split at h
  · exact .inr (victim_none h)
  · exact .inl (by omega)

theorem trimOne_some {maxBytes : ℕ} {c c' : Cache ι χ} {x : CacheKey ι χ × CacheEntry}
    (h : trimOne cells pinned maxBytes c = some (x, c')) :
    Leaves c x c' ∧ trimmable cells pinned x = true := by
  unfold trimOne at h
  split at h
  · exact victim_some h
  · cases h

theorem trimOne_none {maxBytes : ℕ} {c : Cache ι χ}
    (h : trimOne cells pinned maxBytes c = none) :
    retainedBytes cells pinned c ≤ maxBytes ∨
      ∀ x ∈ c.entries, trimmable cells pinned x = false := by
  unfold trimOne at h
  split at h
  · exact .inr fun x hx => by simpa using List.filter_eq_nil_iff.mp (victim_none h) x hx
  · exact .inl (by omega)

/-- A new entry displaces evictable ones, so many that with it there are no more of them than the
capacity. -/
theorem cacheEntry_spec (cells : ℕ → Cell) (pinned : Finset ResourceKey) (policy : CachePolicy)
    {c : Cache ι χ} {key : CacheKey ι χ}
    (absent : ∀ x ∈ c.entries, x.1 ≠ key) (entry : CacheEntry) :
    ∃ kept, (cacheEntry policy cells pinned c key entry).2.entries = (key, entry) :: kept ∧
      c.entries.Perm ((cacheEntry policy cells pinned c key entry).1 ++ kept) ∧
      kept.Sublist c.entries ∧
      (∀ x ∈ (cacheEntry policy cells pinned c key entry).1, evictable cells pinned x = true) ∧
      (kept.filter (evictable cells pinned)).length < policy.capacity := by
  obtain ⟨effective, heffective⟩ : ∃ effective,
    policy.capacity + pinnedCacheCount cells pinned c = effective := ⟨_, rfl⟩
  obtain ⟨r, hr⟩ : ∃ r, exhaust (displaceOne cells pinned effective) c.entries.length c = r :=
    ⟨_, rfl⟩
  obtain ⟨perm, sub, each, done⟩ := hr ▸ exhaust_leaves
    (fun c x c' (h : displaceOne cells pinned effective c = some (x, c')) => displaceOne_some h) c
  obtain ⟨same, room⟩ := grown_spec r.2
  have absent' : ∀ x ∈ (grown r.2).entries, x.1 ≠ key := fun x hx =>
    absent x (sub.subset (same ▸ hx))
  obtain ⟨nothing, pushed⟩ := push_new (v := entry) absent' (same ▸ room)
  have made : cacheEntry policy cells pinned c key entry =
      (r.1 ++ ((grown r.2).push key entry).1.toList, ((grown r.2).push key entry).2) := by
    simp only [cacheEntry, heffective, hr]
  rw [made, nothing, pushed, same]
  refine ⟨r.2.entries, rfl, ?_, sub, ?_, ?_⟩
  · rw [Option.toList_none, List.append_nil]
    exact perm
  · rw [Option.toList_none, List.append_nil]
    exact each
  · -- what cannot be displaced is all still there
    have left : (r.2.entries.filter fun x => !evictable cells pinned x).length =
        pinnedCacheCount cells pinned c := by
      have taken : r.1.filter (fun x => !evictable cells pinned x) = [] :=
        List.filter_eq_nil_iff.mpr fun x hx => by rw [each x hx]; simp
      have := (perm.filter fun x => !evictable cells pinned x).length_eq
      rw [List.filter_append, taken, List.nil_append] at this
      exact this.symm
    have parts := length_evictable cells pinned r.2.entries
    have positive := policy.positive
    rcases displaceOne_none done with short | none_left
    · omega
    · rw [none_left]
      exact positive

theorem enforce_trades (policy : CachePolicy) (s : State ι χ) :
    Trades s s.cache.entries (enforceCapacity policy s) := by
  unfold enforceCapacity
  split
  · rename_i maxBytes _ _
    obtain ⟨perm, sub, each, -⟩ := exhaust_leaves
      (fun c x c' (h : trimOne s.cells s.pinned maxBytes c = some (x, c')) => trimOne_some h)
      s.cache
    exact ⟨rfl, perm, sub, fun x hx => trimmable_spent (each x hx)⟩
  · exact quiet_trades s

theorem enforce_disciplined (policy : CachePolicy) (s : State ι χ) :
    Disciplined policy (enforceCapacity policy s) := by
  have trades := enforce_trades policy s
  unfold enforceCapacity at trades ⊢
  split at trades
  · rename_i maxBytes _ hmax
    refine ⟨trades.spent, fun h => (by cases h), fun _ limit hlimit => ?_, fun _ k => ?_⟩
    · rw [hmax] at hlimit
      cases hlimit
      exact trimOne_none (exhaust_leaves (fun _ _ _ => trimOne_some) s.cache).2.2.2
    · exact ⟨mem_distinctKeys.mp, fun displaced _ => mem_distinctKeys.mpr displaced⟩
  · exact quiet_disciplined policy s

theorem insert_trades (policy : CachePolicy) {s : State ι χ} {key : CacheKey ι χ}
    (absent : ∀ x ∈ s.cache.entries, x.1 ≠ key) (entry : CacheEntry) :
    Trades s ((key, entry) :: s.cache.entries) (insertEntry policy s key entry) := by
  obtain ⟨kept, made, perm, sub, each, -⟩ := cacheEntry_spec s.cells s.pinned policy
    absent entry
  obtain ⟨r, hr⟩ : ∃ r, cacheEntry policy s.cells s.pinned s.cache key entry = r := ⟨_, rfl⟩
  rw [hr] at made perm each
  have after := enforce_trades policy { s with cache := r.2 }
  simp only [insertEntry, hr]
  refine ⟨after.rest, ?_, ?_, List.forall_mem_append.mpr ⟨fun x hx => evictable_spent (each x hx),
    after.spent⟩⟩
  · have parts := after.parts
    rw [made] at parts
    refine (perm.cons (key, entry)).trans ?_
    refine List.perm_middle.symm.trans ?_
    rw [List.append_assoc]
    exact parts.append_left _
  · have order := after.order
    rw [made] at order
    exact order.trans (sub.cons_cons _)

theorem insert_disciplined (policy : CachePolicy) {s : State ι χ} {key : CacheKey ι χ}
    (absent : ∀ x ∈ s.cache.entries, x.1 ≠ key) (entry : CacheEntry) :
    Disciplined policy (insertEntry policy s key entry) := by
  have trades := insert_trades policy absent entry
  obtain ⟨kept, made, perm, sub, each, few⟩ := cacheEntry_spec s.cells s.pinned policy
    absent entry
  obtain ⟨r, hr⟩ : ∃ r, cacheEntry policy s.cells s.pinned s.cache key entry = r := ⟨_, rfl⟩
  rw [hr] at made perm each
  have inserted : insertEntry policy s key entry =
      { state := (enforceCapacity policy { s with cache := r.2 }).state
        displaced := r.1 ++ (enforceCapacity policy { s with cache := r.2 }).displaced
        reported := (if policy.volatile then r.1.map fun x => x.1.key else []) ++
          (enforceCapacity policy { s with cache := r.2 }).reported
        inserted := true
        enforced := (enforceCapacity policy { s with cache := r.2 }).enforced } := by
    simp only [insertEntry, hr]
  have after := enforce_trades policy { s with cache := r.2 }
  have keeps := enforce_disciplined policy { s with cache := r.2 }
  rw [inserted] at trades ⊢
  generalize enforceCapacity policy { s with cache := r.2 } = o at *
  have cells : o.state.cells = s.cells := by rw [after.rest]
  have pinned : o.state.pinned = s.pinned := by rw [after.rest]
  refine ⟨?_, fun _ => ?_, keeps.limit, fun volatile k => ?_⟩
  · intro x hx
    have spent := trades.spent x hx
    rw [← cells, ← pinned] at spent
    exact spent
  · have order := after.order
    rw [made] at order
    have fewer := (order.filter (evictable s.cells s.pinned)).length_le
    have most := List.length_filter_le (evictable s.cells s.pinned) [(key, entry)]
    rw [← List.singleton_append, List.filter_append, List.length_append] at fewer
    rw [List.length_singleton] at most
    dsimp only
    rw [cells, pinned]
    omega
  · obtain ⟨only, each_last⟩ := keeps.reports volatile k
    rw [if_pos volatile]
    constructor
    · intro reported
      rcases List.mem_append.mp reported with first | later
      · obtain ⟨x, hx, rfl⟩ := List.mem_map.mp first
        exact ⟨x, List.mem_append_left _ hx, rfl⟩
      · obtain ⟨x, hx, hk⟩ := only later
        exact ⟨x, List.mem_append_right _ hx, hk⟩
    · rintro ⟨x, hx, rfl⟩ last
      rcases List.mem_append.mp hx with first | later
      · exact List.mem_append_left _ (List.mem_map.mpr ⟨x, first, rfl⟩)
      · exact List.mem_append_right _ (each_last ⟨x, later, rfl⟩ last)

/-- How a call ends: with the state it left, with the byte limit enforced, or with a new entry. -/
def Ends (policy : CachePolicy) (o : Outcome ι χ) : Prop :=
  (∃ s, o = .quiet s) ∨ (∃ s, o = enforceCapacity policy s) ∨
    ∃ s key entry, o = insertEntry policy s key entry ∧ ∀ x ∈ s.cache.entries, x.1 ≠ key

theorem acquire_ends (policy : CachePolicy) (s : State ι χ) (key : CacheKey ι χ)
    (reactivates : Bool) (inner : Option Acquired) :
    Ends policy (acquireResource policy s key reactivates inner) := by
  unfold acquireResource
  split
  · cases inner with
    | none => exact .inl ⟨_, rfl⟩
    | some acq => cases acq <;> exact .inl ⟨_, rfl⟩
  · split
    · dsimp only
      split
      · exact .inl ⟨_, rfl⟩
      · split <;> exact .inl ⟨_, rfl⟩
    · rename_i missed
      have absent := getMut_none missed
      cases inner with
      | none => exact .inl ⟨_, rfl⟩
      | some acq => cases acq <;> exact .inr (.inr ⟨_, _, _, rfl, absent⟩)

theorem open_ends (policy : CachePolicy) (s : State ι χ) (key : CacheKey ι χ)
    (inner : Option Cell) : Ends policy (openResource policy s key inner) := by
  unfold openResource
  split
  · cases inner <;> exact .inl ⟨_, rfl⟩
  · dsimp only
    split
    · exact .inl ⟨_, rfl⟩
    · rename_i missed
      split
      · exact .inl ⟨_, rfl⟩
      · cases inner with
        | none => exact .inl ⟨_, rfl⟩
        | some cell =>
          dsimp only
          cases dead : (s.cache.peek key).any s.isDead with
          | true => exact .inl ⟨_, rfl⟩
          | false =>
            rw [dead, if_neg Bool.false_ne_true] at missed
            have absent := getMut_none missed
            exact .inr (.inr ⟨_, _, _, rfl, absent⟩)

theorem step_ends (policy : CachePolicy) (s : State ι χ) (a : Action ι χ) :
    Ends policy (step policy s a) := by
  cases a with
  | acquire key reactivates inner => exact acquire_ends policy s key reactivates inner
  | «open» key inner => exact open_ends policy s key inner
  | commit token finalLen len => exact .inr (.inl ⟨_, rfl⟩)
  | release key => exact .inr (.inl ⟨_, rfl⟩)
  | reactivate reader reactivates =>
    refine .inl ?_
    unfold step
    dsimp only
    split <;> exact ⟨_, rfl⟩
  | commitFails token left => exact .inl ⟨_, rfl⟩
  | fail token reason => exact .inl ⟨_, rfl⟩
  | abandon token => exact .inl ⟨_, rfl⟩
  | retain key => exact .inl ⟨_, rfl⟩
  | removeResource key => exact .inl ⟨_, rfl⟩
  | deleteAsset root => exact .inl ⟨_, rfl⟩

theorem step_disciplined (policy : CachePolicy) (s : State ι χ) (a : Action ι χ) :
    Disciplined policy (step policy s a) := by
  rcases step_ends policy s a with ⟨s', ends⟩ | ⟨s', ends⟩ | ⟨s', key, entry, ends, absent⟩
  · rw [ends]
    exact quiet_disciplined policy s'
  · rw [ends]
    exact enforce_disciplined policy s'
  · rw [ends]
    exact insert_disciplined policy absent entry

end Calls

end HandleCache

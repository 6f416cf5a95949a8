import Kithara.KeyedSums

/-! Tables of values by key: the image of a table under a function that may drop a value, and a
value put under a key that has none. -/
namespace KeyedTables

open KeyedSums (Table)

variable {κ ν μ : Type*} [DecidableEq κ]

/-- The table of the values that `f` gives, under the keys that had them. -/
def mapValues (f : ν → Option μ) (m : Table κ ν) : Table κ μ where
  entries := m.entries.filterMap fun e => (f e.2).map fun v => ⟨e.1, v⟩
  nodupKeys := by
    have hkeys : (m.entries.filterMap fun e => (f e.2).map fun v =>
        (⟨e.1, v⟩ : Sigma fun _ : κ => μ)).keys.Sublist m.keys := by
      rw [AList.keys]
      induction m.entries with
      | nil => exact List.Sublist.slnil
      | cons e es ih =>
        rw [List.filterMap_cons]
        cases hv : f e.2 with
        | none => exact ih.cons _
        | some v => exact ih.cons_cons _
    exact m.keys_nodup.sublist hkeys

def orInsert (m : Table κ ν) (k : κ) (v : ν) : Table κ ν :=
  if k ∈ m then m else m.insert k v

variable {f : ν → Option μ} {m : Table κ ν} {k k' : κ} {v : ν}

@[simp] theorem lookup_mapValues (f : ν → Option μ) (m : Table κ ν) (k : κ) :
    (mapValues f m).lookup k = (m.lookup k).bind f := by
  apply Option.ext
  intro w
  have hmem : w ∈ (mapValues f m).lookup k ↔ (⟨k, w⟩ : Sigma fun _ : κ => μ) ∈
      m.entries.filterMap fun e => (f e.2).map fun v => ⟨e.1, v⟩ := AList.mem_lookup_iff
  rw [← Option.mem_def, hmem, List.mem_filterMap, ← Option.mem_def, Option.mem_bind_iff]
  constructor
  · rintro ⟨e, he, heq⟩
    obtain ⟨w', hw', hpair⟩ := Option.map_eq_some_iff.mp heq
    cases hpair
    exact ⟨e.2, AList.mem_lookup_iff.mpr he, hw'⟩
  · rintro ⟨v, hv, hw⟩
    exact ⟨⟨k, v⟩, AList.mem_lookup_iff.mp hv, Option.map_eq_some_iff.mpr ⟨w, hw, rfl⟩⟩

theorem lookup_orInsert (m : Table κ ν) (k : κ) (v : ν) (k' : κ) :
    (orInsert m k v).lookup k' =
      if k' = k then some ((m.lookup k).getD v) else m.lookup k' := by
  rw [orInsert]
  by_cases hk : k ∈ m
  · obtain ⟨w, hw⟩ := Option.isSome_iff_exists.mp (AList.lookup_isSome.mpr hk)
    rw [if_pos hk]
    split
    · rename_i heq
      rw [heq, hw, Option.getD_some]
    · rfl
  · rw [if_neg hk]
    split
    · rename_i heq
      rw [heq, AList.lookup_insert, AList.lookup_eq_none.mpr hk, Option.getD_none]
    · rename_i hne
      exact AList.lookup_insert_ne hne

theorem lookup_foldl_orInsert (es : List (Sigma fun _ : κ => ν)) (hes : es.NodupKeys) (k : κ) :
    (es.foldl (fun m e => orInsert m e.1 e.2) ∅).lookup k = es.dlookup k := by
  suffices hall : ∀ m : Table κ ν, (∀ e ∈ es, e.1 ∉ m) →
      (es.foldl (fun m e => orInsert m e.1 e.2) m).lookup k = (es.dlookup k).or (m.lookup k) by
    rw [hall ∅ fun e _ => AList.notMem_empty e.1, AList.lookup_empty, Option.or_none]
  induction es with
  | nil =>
    intro m _
    rw [List.foldl_nil, List.dlookup_nil, Option.none_or]
  | cons e es ih =>
    intro m hm
    obtain ⟨hnot, hrest⟩ := List.nodupKeys_cons.mp hes
    rw [List.foldl_cons, ih hrest]
    · rw [lookup_orInsert, AList.lookup_eq_none.mpr (hm e List.mem_cons_self), Option.getD_none]
      by_cases hk : k = e.1
      · subst hk
        rw [if_pos rfl, List.dlookup_cons_eq, List.dlookup_eq_none.mpr hnot, Option.none_or,
          Option.some_or]
      · rw [if_neg hk, List.dlookup_cons_ne _ _ hk]
    · intro e' he'
      rw [orInsert, if_neg (hm e List.mem_cons_self), AList.mem_insert, not_or]
      refine ⟨fun heq => hnot (heq ▸ List.mem_keys_of_mem he'), hm e' (List.mem_cons_of_mem _ he')⟩

end KeyedTables

import Kithara.Extraction

/-! A map of bounded capacity in order of recency: the entry used last is first, and a push into a
full map drops the entry used longest ago. -/
namespace RecencyCache

open Extraction

/-- Each key has one entry, and the capacity is a bound on their number. -/
structure Lru (κ ν : Type*) where
  entries : List (κ × ν)
  cap : ℕ
  nodup : (entries.map Prod.fst).Nodup
  positive : 0 < cap
  bounded : entries.length ≤ cap

variable {κ ν : Type*} [DecidableEq κ]

def split (k : κ) (entries : List (κ × ν)) : Option ((κ × ν) × List (κ × ν)) :=
  extract (fun x => decide (x.1 = k)) entries

theorem split_spec {k : κ} {entries rest : List (κ × ν)} {x : κ × ν}
    (h : split k entries = some (x, rest)) :
    entries.Perm (x :: rest) ∧ x.1 = k ∧ rest.Sublist entries :=
  ⟨(extract_spec h).1, of_decide_eq_true (extract_spec h).2, extract_sublist h⟩

theorem split_none {k : κ} {entries : List (κ × ν)} (h : split k entries = none) :
    ∀ x ∈ entries, x.1 ≠ k := fun x hx => of_decide_eq_false (extract_eq_none h x hx)

theorem split_rest {k : κ} {entries rest : List (κ × ν)} {x : κ × ν}
    (nodup : (entries.map Prod.fst).Nodup) (h : split k entries = some (x, rest)) :
    k ∉ rest.map Prod.fst := by
  obtain ⟨perm, rfl, -⟩ := split_spec h
  have := (perm.map Prod.fst).nodup_iff.mp nodup
  exact (List.nodup_cons.mp this).1

namespace Lru

def new (cap : ℕ) (positive : 0 < cap) : Lru κ ν := ⟨[], cap, List.nodup_nil, positive, Nat.zero_le _⟩

def peek (c : Lru κ ν) (k : κ) : Option ν := (split k c.entries).map fun r => r.1.2

/-- Uses the entry of a key, and changes its value. -/
def getMut (c : Lru κ ν) (k : κ) (f : ν → ν) : Option (ν × Lru κ ν) :=
  match h : split k c.entries with
  | none => none
  | some (x, rest) => some (f x.2, {
      entries := (k, f x.2) :: rest
      cap := c.cap
      nodup := List.nodup_cons.mpr
        ⟨split_rest c.nodup h, c.nodup.sublist ((split_spec h).2.2.map _)⟩
      positive := c.positive
      bounded := by
        have := (split_spec h).1.length_eq
        have := c.bounded
        simp only [List.length_cons] at *
        omega })

def pop (c : Lru κ ν) (k : κ) : Option (ν × Lru κ ν) :=
  match h : split k c.entries with
  | none => none
  | some (x, rest) => some (x.2, {
      entries := rest
      cap := c.cap
      nodup := c.nodup.sublist ((split_spec h).2.2.map _)
      positive := c.positive
      bounded := (split_spec h).2.2.length_le.trans c.bounded })

/-- The value becomes the one used last. What a key had before comes back, or what was dropped for
it. -/
def push (c : Lru κ ν) (k : κ) (v : ν) : Option (κ × ν) × Lru κ ν :=
  match h : split k c.entries with
  | some (x, rest) => (some x, {
      entries := (k, v) :: rest
      cap := c.cap
      nodup := List.nodup_cons.mpr
        ⟨split_rest c.nodup h, c.nodup.sublist ((split_spec h).2.2.map _)⟩
      positive := c.positive
      bounded := by
        have := (split_spec h).1.length_eq
        have := c.bounded
        simp only [List.length_cons] at *
        omega })
  | none =>
    let dropped := if c.entries.length = c.cap then c.entries.getLast? else none
    (dropped, {
      entries := (k, v) :: (if c.entries.length = c.cap then c.entries.dropLast else c.entries)
      cap := c.cap
      nodup := by
        have absent : k ∉ c.entries.map Prod.fst := by
          intro hk
          obtain ⟨x, hx, rfl⟩ := List.mem_map.mp hk
          exact split_none h x hx rfl
        rw [List.map_cons, List.nodup_cons]
        split
        · exact ⟨fun hk => absent (((List.dropLast_sublist _).map _).subset hk),
            c.nodup.sublist ((List.dropLast_sublist _).map _)⟩
        · exact ⟨absent, c.nodup⟩
      positive := c.positive
      bounded := by
        have := c.bounded
        have := c.positive
        split
        · rw [List.length_cons, List.length_dropLast]
          omega
        · rw [List.length_cons]
          omega })

/-- A smaller capacity drops what was used longest ago. -/
def resize (c : Lru κ ν) (cap : ℕ) (positive : 0 < cap) : Lru κ ν where
  entries := c.entries.take cap
  cap := cap
  nodup := c.nodup.sublist ((List.take_sublist _ _).map _)
  positive := positive
  bounded := List.length_take_le _ _

def popAll (c : Lru κ ν) (keys : List κ) : Lru κ ν :=
  keys.foldl (fun c k => ((c.pop k).map Prod.snd).getD c) c

end Lru

theorem getMut_spec {c c' : Lru κ ν} {k : κ} {f : ν → ν} {v : ν}
    (h : c.getMut k f = some (v, c')) :
    ∃ old rest, c.entries.Perm ((k, old) :: rest) ∧ rest.Sublist c.entries ∧ v = f old ∧
      c'.entries = (k, v) :: rest := by
  unfold Lru.getMut at h
  split at h
  · cases h
  · rename_i x rest hs
    cases h
    obtain ⟨perm, rfl, sub⟩ := split_spec hs
    exact ⟨x.2, rest, perm, sub, rfl, rfl⟩

theorem getMut_none {c : Lru κ ν} {k : κ} {f : ν → ν} (h : c.getMut k f = none) :
    ∀ x ∈ c.entries, x.1 ≠ k := by
  unfold Lru.getMut at h
  split at h
  · rename_i hs
    exact split_none hs
  · cases h

theorem pop_spec {c c' : Lru κ ν} {k : κ} {v : ν} (h : c.pop k = some (v, c')) :
    c.entries.Perm ((k, v) :: c'.entries) ∧ c'.entries.Sublist c.entries := by
  unfold Lru.pop at h
  split at h
  · cases h
  · rename_i x rest hs
    cases h
    obtain ⟨perm, rfl, sub⟩ := split_spec hs
    exact ⟨perm, sub⟩

theorem pop_mem {c : Lru κ ν} {k : κ} {v : ν} (h : (k, v) ∈ c.entries) :
    ∃ c', c.pop k = some (v, c') := by
  cases hp : c.pop k with
  | none =>
    unfold Lru.pop at hp
    split at hp
    · rename_i hs
      exact absurd rfl (split_none hs _ h)
    · cases hp
  | some r =>
    obtain ⟨v', c'⟩ := r
    obtain ⟨perm, -⟩ := pop_spec hp
    have same : (k, v) = (k, v') := List.inj_on_of_nodup_map c.nodup h
      (perm.mem_iff.mpr List.mem_cons_self) rfl
    cases same
    exact ⟨c', rfl⟩

theorem pop_none {c : Lru κ ν} {k : κ} (h : c.pop k = none) : ∀ x ∈ c.entries, x.1 ≠ k := by
  unfold Lru.pop at h
  split at h
  · rename_i hs
    exact split_none hs
  · cases h

theorem push_held {c : Lru κ ν} {k : κ} {v old : ν} {rest : List (κ × ν)}
    (h : c.entries.Perm ((k, old) :: rest)) :
    (c.push k v).2.entries.Perm ((k, v) :: rest) := by
  unfold Lru.push
  split
  · rename_i x rest' hs
    obtain ⟨perm, named, -⟩ := split_spec hs
    have here : x = (k, old) := List.inj_on_of_nodup_map c.nodup
      (perm.mem_iff.mpr List.mem_cons_self) (h.mem_iff.mpr List.mem_cons_self) named
    rw [here] at perm
    exact ((perm.symm.trans h).cons_inv).cons _
  · rename_i hs
    exact absurd rfl (split_none hs _ (h.mem_iff.mpr List.mem_cons_self))

theorem push_new {c : Lru κ ν} {k : κ} {v : ν} (h : ∀ x ∈ c.entries, x.1 ≠ k)
    (room : c.entries.length < c.cap) :
    (c.push k v).1 = none ∧ (c.push k v).2.entries = (k, v) :: c.entries := by
  unfold Lru.push
  split
  · rename_i x rest hs
    obtain ⟨perm, named, -⟩ := split_spec hs
    exact absurd named (h x (perm.mem_iff.mpr List.mem_cons_self))
  · dsimp only
    rw [if_neg (by omega), if_neg (by omega)]
    exact ⟨rfl, rfl⟩

theorem popAll_sublist (c : Lru κ ν) (keys : List κ) :
    (c.popAll keys).entries.Sublist c.entries := by
  induction keys generalizing c with
  | nil => exact .refl _
  | cons k keys ih =>
    refine (ih _).trans ?_
    dsimp only
    cases hp : c.pop k with
    | none => exact .refl _
    | some r => exact (pop_spec hp).2

theorem mem_popAll {c : Lru κ ν} {keys : List κ} {x : κ × ν} :
    x ∈ (c.popAll keys).entries ↔ x ∈ c.entries ∧ x.1 ∉ keys := by
  induction keys generalizing c with
  | nil => simp [Lru.popAll]
  | cons k keys ih =>
    have step : c.popAll (k :: keys) = (((c.pop k).map Prod.snd).getD c).popAll keys := rfl
    rw [step, ih, List.mem_cons, not_or, ← and_assoc]
    refine and_congr_left fun _ => ?_
    cases hp : c.pop k with
    | none =>
      exact ⟨fun hx => ⟨hx, pop_none hp x hx⟩, And.left⟩
    | some r =>
      obtain ⟨v, c'⟩ := r
      obtain ⟨perm, -⟩ := pop_spec hp
      have once := (perm.map Prod.fst).nodup_iff.mp c.nodup
      have gone := (List.nodup_cons.mp once).1
      simp only [Option.map_some, Option.getD_some]
      rw [perm.mem_iff, List.mem_cons]
      constructor
      · intro hx
        refine ⟨.inr hx, ?_⟩
        rintro rfl
        exact gone (List.mem_map.mpr ⟨x, hx, rfl⟩)
      · rintro ⟨rfl | hx, other⟩
        · exact absurd rfl other
        · exact hx

end RecencyCache

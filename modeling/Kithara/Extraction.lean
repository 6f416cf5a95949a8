import Mathlib.Data.Multiset.MapFold
import Mathlib.Data.List.Basic
import Mathlib.Data.List.TakeWhile
import Mathlib.Order.Defs.LinearOrder

/-! Taking single elements out of lists, putting one in its place, and emptying a store one
element at a time. What is taken and what stays together have the content the store had. -/
namespace Extraction

variable {α β σ : Type*}

/-- The first element that passes the test, and the list without it. -/
def extract (p : α → Bool) : List α → Option (α × List α)
  | [] => none
  | x :: xs => if p x then some (x, xs) else (extract p xs).map fun r => (r.1, x :: r.2)

def swapExtract (p : α → Bool) : List α → Option (α × List α)
  | [] => none
  | x :: xs =>
    if p x then some (x, match xs.getLast? with
      | none => []
      | some last => last :: xs.dropLast)
    else (swapExtract p xs).map fun r => (r.1, x :: r.2)

theorem extract_spec {p : α → Bool} {l rest : List α} {x : α}
    (h : extract p l = some (x, rest)) : l.Perm (x :: rest) ∧ p x = true := by
  induction l generalizing rest with
  | nil => cases h
  | cons y ys ih =>
    by_cases hy : p y = true
    · rw [extract, if_pos hy] at h
      cases h
      exact ⟨List.Perm.refl _, hy⟩
    · rw [extract, if_neg hy, Option.map_eq_some_iff] at h
      obtain ⟨⟨z, zs⟩, hz, he⟩ := h
      cases he
      obtain ⟨hperm, hp⟩ := ih hz
      exact ⟨(hperm.cons y).trans (List.Perm.swap _ _ _), hp⟩

theorem extract_sublist {p : α → Bool} {l rest : List α} {x : α}
    (h : extract p l = some (x, rest)) : rest.Sublist l := by
  induction l generalizing rest with
  | nil => cases h
  | cons y ys ih =>
    by_cases hy : p y = true
    · rw [extract, if_pos hy] at h
      cases h
      exact List.sublist_cons_self _ _
    · rw [extract, if_neg hy, Option.map_eq_some_iff] at h
      obtain ⟨⟨z, zs⟩, hz, he⟩ := h
      cases he
      exact (ih hz).cons_cons y

theorem extract_eq_none {p : α → Bool} {l : List α} (h : extract p l = none) :
    ∀ x ∈ l, p x = false := by
  induction l with
  | nil => exact fun x hx => absurd hx List.not_mem_nil
  | cons y ys ih =>
    by_cases hy : p y = true
    · rw [extract, if_pos hy] at h
      cases h
    · rw [extract, if_neg hy, Option.map_eq_none_iff] at h
      intro x hx
      rcases List.mem_cons.mp hx with rfl | hx
      · exact Bool.eq_false_iff.mpr hy
      · exact ih h x hx

theorem swapExtract_spec {p : α → Bool} {l rest : List α} {x : α}
    (h : swapExtract p l = some (x, rest)) : l.Perm (x :: rest) ∧ p x = true := by
  induction l generalizing rest with
  | nil => cases h
  | cons y ys ih =>
    by_cases hy : p y = true
    · rw [swapExtract, if_pos hy] at h
      cases h
      refine ⟨List.Perm.cons _ ?_, hy⟩
      cases hlast : ys.getLast? with
      | none => rw [List.getLast?_eq_none_iff.mp hlast]
      | some last =>
        obtain ⟨front, rfl⟩ := List.getLast?_eq_some_iff.mp hlast
        rw [List.dropLast_concat]
        exact List.perm_append_singleton last front
    · rw [swapExtract, if_neg hy, Option.map_eq_some_iff] at h
      obtain ⟨⟨z, zs⟩, hz, he⟩ := h
      cases he
      obtain ⟨hperm, hp⟩ := ih hz
      exact ⟨(hperm.cons y).trans (List.Perm.swap _ _ _), hp⟩

/-- Takes until nothing is left to take, at most as often as the fuel allows. -/
def exhaust (take : σ → Option (α × σ)) : ℕ → σ → List α × σ
  | 0, s => ([], s)
  | n + 1, s =>
    match take s with
    | none => ([], s)
    | some (x, s') => (x :: (exhaust take n s').1, (exhaust take n s').2)

theorem exhaust_content (take : σ → Option (α × σ)) (content : σ → Multiset β) (tag : α → β)
    (h : ∀ s x s', take s = some (x, s') → content s = tag x ::ₘ content s') (n : ℕ) (s : σ) :
    content s = ((exhaust take n s).1.map tag : Multiset β) + content (exhaust take n s).2 := by
  induction n generalizing s with
  | zero => simp [exhaust]
  | succ n ih =>
    cases ht : take s with
    | none => simp [exhaust, ht]
    | some r =>
      obtain ⟨x, s'⟩ := r
      simp only [exhaust, ht]
      rw [h s x s' ht, ih s', List.map_cons, ← Multiset.cons_coe, Multiset.cons_add]

theorem exhaust_forall (take : σ → Option (α × σ)) {p : σ → Prop} {q : α → Prop}
    (h : ∀ s x s', p s → take s = some (x, s') → q x ∧ p s') (n : ℕ) {s : σ} (hs : p s) :
    (∀ x ∈ (exhaust take n s).1, q x) ∧ p (exhaust take n s).2 := by
  induction n generalizing s with
  | zero => exact ⟨fun x hx => absurd hx List.not_mem_nil, hs⟩
  | succ n ih =>
    cases ht : take s with
    | none => simpa [exhaust, ht] using hs
    | some r =>
      obtain ⟨x, s'⟩ := r
      obtain ⟨hx, hs'⟩ := h s x s' hs ht
      obtain ⟨hall, hend⟩ := ih hs'
      simp only [exhaust, ht]
      exact ⟨List.forall_mem_cons.mpr ⟨hx, hall⟩, hend⟩

theorem exhaust_none (take : σ → Option (α × σ)) (size : σ → ℕ)
    (h : ∀ s x s', take s = some (x, s') → size s' < size s) {n : ℕ} {s : σ}
    (hn : size s ≤ n) : take (exhaust take n s).2 = none := by
  induction n generalizing s with
  | zero =>
    cases ht : take s with
    | none => exact ht
    | some r => exact absurd (h s r.1 r.2 ht) (by omega)
  | succ n ih =>
    cases ht : take s with
    | none => simp [exhaust, ht]
    | some r =>
      obtain ⟨x, s'⟩ := r
      have hlt := h s x s' ht
      simpa [exhaust, ht] using ih (s := s') (by omega)

/-- Putting an element where the test stops keeps a list in order, if the test tells the keys
before its own from those after. -/
theorem insert_order {κ : Type*} [LinearOrder κ] {key : α → κ} {x : α} {p : α → Bool} {l : List α}
    (h : l.Pairwise fun a b => key a < key b) (hbefore : ∀ a ∈ l, p a = true → key a < key x)
    (hafter : ∀ a ∈ l, p a = false → key x < key a) :
    (l.takeWhile p ++ x :: l.dropWhile p).Pairwise fun a b => key a < key b := by
  have htaken : ∀ a ∈ l.takeWhile p, key a < key x := fun a ha =>
    hbefore a (List.takeWhile_subset _ ha) (List.mem_takeWhile_imp ha)
  have hleft : ∀ a ∈ l.dropWhile p, key x < key a := by
    intro a ha
    cases hd : l.dropWhile p with
    | nil =>
      rw [hd] at ha
      cases ha
    | cons first rest =>
      have hstop : p first = false := by
        have := List.head_dropWhile_not p (by rw [hd]; exact List.cons_ne_nil first rest)
        simpa [hd] using this
      have hin : first ∈ l := (List.dropWhile_sublist p).subset (hd ▸ List.mem_cons_self)
      have hfirst := hafter first hin hstop
      have hsuffix : (first :: rest).Pairwise fun a b => key a < key b :=
        hd ▸ h.sublist (List.dropWhile_sublist p)
      rw [hd] at ha
      rcases List.mem_cons.mp ha with rfl | ha
      · exact hfirst
      · exact hfirst.trans (List.rel_of_pairwise_cons hsuffix ha)
  apply List.pairwise_append.mpr
  refine ⟨h.sublist (List.takeWhile_sublist p), ?_, ?_⟩
  · exact List.pairwise_cons.mpr ⟨hleft, h.sublist (List.dropWhile_sublist p)⟩
  · intro a ha b hb
    rcases List.mem_cons.mp hb with rfl | hb
    · exact htaken a ha
    · exact (htaken a ha).trans (hleft b hb)

end Extraction

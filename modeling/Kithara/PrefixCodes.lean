import Mathlib.Data.List.Basic

/-! Texts written piece by piece. When no piece's text begins another's, a text tells the pieces
it was written from; and a sign that only begins pieces tells where one of them begins. -/
namespace PrefixCodes

variable {α β : Type*} {text : α → List β}

/-- No piece is written as nothing, and none as the beginning of another. -/
structure PrefixCode (text : α → List β) : Prop where
  nonempty : ∀ a, text a ≠ []
  cancel : ∀ {a b : α} {s t : List β}, text a ++ s = text b ++ t → a = b

theorem PrefixCode.flatMap_injective (h : PrefixCode text) :
    Function.Injective (List.flatMap text) := by
  intro xs
  induction xs with
  | nil =>
    intro ys heq
    cases ys with
    | nil => rfl
    | cons y ys => exact absurd (List.append_eq_nil_iff.mp heq.symm).1 (h.nonempty y)
  | cons x xs ih =>
    intro ys heq
    cases ys with
    | nil => exact absurd (List.append_eq_nil_iff.mp heq).1 (h.nonempty x)
    | cons y ys =>
      simp only [List.flatMap_cons] at heq
      obtain rfl := h.cancel heq
      exact congrArg (x :: ·) (ih (List.append_cancel_left heq))

theorem flatMap_cut {c : β} (hhead : ∀ a, c ∉ (text a).tail) {xs : List α} {s t : List β}
    (h : xs.flatMap text = s ++ c :: t) :
    ∃ before a after, xs = before ++ a :: after ∧ before.flatMap text = s ∧
      text a ++ after.flatMap text = c :: t := by
  induction xs generalizing s with
  | nil => exact absurd h.symm (by simp)
  | cons x xs ih =>
    rcases List.append_eq_append_iff.mp h with ⟨s', rfl, hrest⟩ | ⟨u, hpiece, hrest⟩
    · obtain ⟨before, a, after, rfl, rfl, hat⟩ := ih hrest
      exact ⟨x :: before, a, after, rfl, rfl, hat⟩
    · cases u with
      | nil =>
        obtain ⟨before, a, after, rfl, hbefore, hat⟩ := ih (s := []) hrest.symm
        refine ⟨x :: before, a, after, rfl, ?_, hat⟩
        rw [List.flatMap_cons, hbefore, hpiece]
        simp
      | cons d u =>
        obtain ⟨rfl, rfl⟩ := List.cons.inj hrest
        cases s with
        | nil => exact ⟨[], x, xs, rfl, rfl, by rw [hpiece]; rfl⟩
        | cons d s =>
          refine absurd ?_ (hhead x)
          rw [hpiece]
          simp

end PrefixCodes

import Mathlib.Data.List.Basic
import Mathlib.Algebra.Ring.Parity

/-! Comma-separated items in which a value may be one double-quoted span. A comma inside a span
belongs to its item, so the split follows the quotes; what counts as a space is a parameter. -/
namespace QuotedItems

/-- The items of a text, from the middle of one: `item` is read already, and `quoted` says whether
a span is open. -/
def itemsFrom (quoted : Bool) (item : List Char) : List Char → List (List Char)
  | [] => [item]
  | c :: cs =>
    if quoted = false ∧ c = ',' then item :: itemsFrom false [] cs
    else itemsFrom (quoted ^^ decide (c = '"')) (item ++ [c]) cs

/-- The text split at the commas that no quoted span covers. -/
def items (s : List Char) : List (List Char) := itemsFrom false [] s

variable {space : Char → Bool} {quoted : Bool} {item pre span rest cs : List Char}

/-- A prefix without quotes whose last character other than a space is `=`. -/
def StartsValue (space : Char → Bool) (pre : List Char) : Prop :=
  '"' ∉ pre ∧ ∃ head gap, pre = head ++ '=' :: gap ∧ ∀ c ∈ gap, space c

def QuotedItem (space : Char → Bool) (item : List Char) : Prop :=
  ∃ pre span tail, item = pre ++ '"' :: (span ++ '"' :: tail) ∧ StartsValue space pre ∧
    '"' ∉ span ∧ ∀ c ∈ tail, space c

def WellFormed (space : Char → Bool) (item : List Char) : Prop :=
  '"' ∉ item ∨ QuotedItem space item

/-- Parts that are joined by the commas outside of every quoted span, and by no other: an even
number of quotes stands before each separator, an odd number before each comma of a part. -/
structure OutsideSplit (s : List Char) (parts : List (List Char)) : Prop where
  joined : List.intercalate [','] parts = s
  separators : ∀ part ∈ parts.dropLast, Even (part.count '"')
  commas : ∀ part ∈ parts, ∀ pre rest, part = pre ++ ',' :: rest → Odd (pre.count '"')

theorem itemsFrom_ne_nil (quoted : Bool) (item cs : List Char) :
    itemsFrom quoted item cs ≠ [] := by
  induction cs generalizing quoted item with
  | nil => exact List.cons_ne_nil item []
  | cons c cs ih =>
    rw [itemsFrom]
    split
    · exact List.cons_ne_nil item _
    · exact ih _ _

theorem intercalate_itemsFrom (quoted : Bool) (item cs : List Char) :
    List.intercalate [','] (itemsFrom quoted item cs) = item ++ cs := by
  induction cs generalizing quoted item with
  | nil => simp [itemsFrom, List.intercalate]
  | cons c cs ih =>
    rw [itemsFrom]
    split
    · rename_i h
      rw [List.intercalate_cons_of_ne_nil (itemsFrom_ne_nil false [] cs), ih, h.2]
      simp
    · rw [ih]
      simp

theorem parity_snoc {c : Char} (h : quoted = true ↔ Odd (item.count '"')) :
    (quoted ^^ decide (c = '"')) = true ↔ Odd ((item ++ [c]).count '"') := by
  by_cases hc : c = '"'
  · subst hc
    cases quoted with
    | true => simp [Nat.odd_add_one, h.mp rfl]
    | false =>
      have heven := Nat.not_odd_iff_even.mp fun ho => Bool.false_ne_true (h.mpr ho)
      simp [heven]
  · simpa [hc] using h

theorem separators_itemsFrom (h : quoted = true ↔ Odd (item.count '"')) :
    ∀ part ∈ (itemsFrom quoted item cs).dropLast, Even (part.count '"') := by
  induction cs generalizing quoted item with
  | nil => simp [itemsFrom]
  | cons c cs ih =>
    rw [itemsFrom]
    split
    · rename_i hcomma
      have heven : Even (item.count '"') := by
        rw [← Nat.not_odd_iff_even, ← h, hcomma.1]
        exact Bool.false_ne_true
      rw [List.dropLast_cons_of_ne_nil (itemsFrom_ne_nil false [] cs)]
      intro part hpart
      rcases List.mem_cons.mp hpart with rfl | hpart
      · exact heven
      · exact ih (by simp) part hpart
    · exact ih (parity_snoc h)

theorem commas_itemsFrom (h : quoted = true ↔ Odd (item.count '"'))
    (hitem : ∀ pre rest, item = pre ++ ',' :: rest → Odd (pre.count '"')) :
    ∀ part ∈ itemsFrom quoted item cs, ∀ pre rest, part = pre ++ ',' :: rest →
      Odd (pre.count '"') := by
  induction cs generalizing quoted item with
  | nil => simpa [itemsFrom] using hitem
  | cons c cs ih =>
    rw [itemsFrom]
    split
    · intro part hpart
      rcases List.mem_cons.mp hpart with rfl | hpart
      · exact hitem
      · exact ih (by simp) (by simp) part hpart
    · rename_i hcomma
      refine ih (parity_snoc h) ?_
      intro pre rest heq
      rcases List.eq_nil_or_concat rest with rfl | ⟨rest, d, rfl⟩
      · obtain ⟨rfl, hc⟩ := List.append_inj' heq rfl
        have hc := List.singleton_inj.mp hc
        rw [← h]
        cases quoted with
        | true => rfl
        | false => exact absurd ⟨rfl, hc⟩ hcomma
      · rw [List.concat_eq_append, ← List.cons_append, ← List.append_assoc] at heq
        exact hitem pre rest (List.append_inj' heq rfl).1

theorem items_outsideSplit (s : List Char) : OutsideSplit s (items s) where
  joined := intercalate_itemsFrom false [] s
  separators := separators_itemsFrom (by simp)
  commas := commas_itemsFrom (by simp) (by simp)

theorem exists_extension (quoted : Bool) (item cs : List Char) :
    ∃ rest, item ++ rest ∈ itemsFrom quoted item cs := by
  induction cs generalizing quoted item with
  | nil => exact ⟨[], by simp [itemsFrom]⟩
  | cons c cs ih =>
    rw [itemsFrom]
    split
    · exact ⟨[], by simp⟩
    · obtain ⟨rest, h⟩ := ih (quoted ^^ decide (c = '"')) (item ++ [c])
      exact ⟨c :: rest, by simpa using h⟩

theorem first_quote {a b c d : List Char} (ha : '"' ∉ a) (hc : '"' ∉ c)
    (h : a ++ '"' :: b = c ++ '"' :: d) : a = c ∧ b = d := by
  induction a generalizing c with
  | nil =>
    cases c with
    | nil =>
      obtain ⟨-, hbd⟩ := List.cons.inj h
      exact ⟨rfl, hbd⟩
    | cons y ys =>
      obtain ⟨hy, -⟩ := List.cons.inj h
      exact absurd (List.mem_cons.mpr (Or.inl hy)) hc
  | cons x xs ih =>
    cases c with
    | nil =>
      obtain ⟨hx, -⟩ := List.cons.inj h
      exact absurd (List.mem_cons.mpr (Or.inl hx.symm)) ha
    | cons y ys =>
      obtain ⟨hxy, htl⟩ := List.cons.inj h
      obtain ⟨hs, hbd⟩ := ih (fun hm => ha (List.mem_cons_of_mem x hm))
        (fun hm => hc (List.mem_cons_of_mem y hm)) htl
      exact ⟨by rw [hxy, hs], hbd⟩

theorem not_wellFormed_of_early (hpre : '"' ∉ pre) (hstart : ¬ StartsValue space pre) :
    ¬ WellFormed space (pre ++ '"' :: rest) := by
  rintro (hnone | ⟨pre', span, tail, heq, hvalue, -, -⟩)
  · exact hnone (by simp)
  · obtain ⟨rfl, -⟩ := first_quote hpre hvalue.1 heq
    exact hstart hvalue

theorem not_wellFormed_of_open (hpre : '"' ∉ pre) (hspan : '"' ∉ span) :
    ¬ WellFormed space (pre ++ '"' :: span) := by
  rintro (hnone | ⟨pre', span', tail, heq, hvalue, -, -⟩)
  · exact hnone (by simp)
  · obtain ⟨-, htail⟩ := first_quote hpre hvalue.1 heq
    exact hspan (by simp [htail])

theorem not_wellFormed_of_trailing {c : Char} (h : QuotedItem space item) (hc : space c = false) :
    ¬ WellFormed space (item ++ c :: rest) := by
  obtain ⟨pre, span, tail, rfl, hvalue, hspan, -⟩ := h
  rintro (hnone | ⟨pre', span', tail', heq, hvalue', hspan', htail'⟩)
  · exact hnone (by simp)
  · rw [List.append_assoc, List.cons_append] at heq
    obtain ⟨-, heq⟩ := first_quote hvalue.1 hvalue'.1 heq
    rw [List.append_assoc, List.cons_append] at heq
    obtain ⟨-, heq⟩ := first_quote hspan hspan' heq
    have hspace := htail' c (by simp [← heq])
    rw [hc] at hspace
    exact Bool.noConfusion hspace

theorem startsValue_equals (h : '"' ∉ item) : StartsValue space (item ++ ['=']) := by
  constructor
  · simpa using h
  · exact ⟨item, [], rfl, fun c hc => absurd hc List.not_mem_nil⟩

/-- The last character of a started value is the `=` itself or the end of the gap. -/
theorem snoc_eq_value {c : Char} {head gap : List Char} (h : item ++ [c] = head ++ '=' :: gap) :
    (gap = [] ∧ c = '=') ∨ ∃ gap', gap = gap' ++ [c] ∧ item = head ++ '=' :: gap' := by
  rcases List.eq_nil_or_concat gap with rfl | ⟨gap', d, rfl⟩
  · obtain ⟨-, hc⟩ := List.append_inj' h rfl
    exact .inl ⟨rfl, List.singleton_inj.mp hc⟩
  · rw [List.concat_eq_append, ← List.cons_append, ← List.append_assoc] at h
    obtain ⟨hhead, hc⟩ := List.append_inj' h rfl
    refine .inr ⟨gap', ?_, hhead⟩
    rw [List.concat_eq_append, hc]

theorem startsValue_space {c : Char} (heq : space '=' = false) (hquote : space '"' = false)
    (hc : space c = true) : StartsValue space (item ++ [c]) ↔ StartsValue space item := by
  have hcq : c ≠ '"' := by
    rintro rfl
    rw [hquote] at hc
    exact Bool.noConfusion hc
  constructor
  · rintro ⟨hmem, head, gap, hitem, hgap⟩
    refine ⟨fun h => hmem (List.mem_append_left _ h), head, ?_⟩
    rcases snoc_eq_value hitem with ⟨-, rfl⟩ | ⟨gap', rfl, hhead⟩
    · rw [heq] at hc
      exact Bool.noConfusion hc
    · exact ⟨gap', hhead, fun x hx => hgap x (List.mem_append_left _ hx)⟩
  · rintro ⟨hmem, head, gap, rfl, hgap⟩
    refine ⟨?_, head, gap ++ [c], by simp, ?_⟩
    · intro h
      rcases List.mem_append.mp h with h | h
      · exact hmem h
      · exact hcq (List.mem_singleton.mp h).symm
    · intro x hx
      rcases List.mem_append.mp hx with hx | hx
      · exact hgap x hx
      · rw [List.mem_singleton.mp hx, hc]

theorem not_startsValue_other {c : Char} (heq : c ≠ '=') (hc : space c = false) :
    ¬ StartsValue space (item ++ [c]) := by
  rintro ⟨-, head, gap, hitem, hgap⟩
  rcases snoc_eq_value hitem with ⟨-, hce⟩ | ⟨gap', rfl, -⟩
  · exact heq hce
  · have hspace := hgap c (by simp)
    rw [hc] at hspace
    exact Bool.noConfusion hspace

theorem not_startsValue_nil : ¬ StartsValue space [] := by
  rintro ⟨-, head, gap, h, -⟩
  exact List.append_ne_nil_of_right_ne_nil head (List.cons_ne_nil '=' gap) h.symm

theorem quotedItem_space {c : Char} (h : QuotedItem space item) (hc : space c = true) :
    QuotedItem space (item ++ [c]) := by
  obtain ⟨pre, span, tail, rfl, hvalue, hspan, htail⟩ := h
  refine ⟨pre, span, tail ++ [c], by simp, hvalue, hspan, ?_⟩
  intro x hx
  rcases List.mem_append.mp hx with hx | hx
  · exact htail x hx
  · rw [List.mem_singleton.mp hx, hc]

end QuotedItems

import Mathlib.Data.Set.Lattice
import Mathlib.Order.Interval.Set.Defs
import Mathlib.Algebra.Order.Group.Nat
import Mathlib.Data.Finset.Card
import Mathlib.Data.Finset.Range
import Mathlib.Tactic.Ring

/-! Covering a range of the naturals by windows of one size. Gaps are counted by the values they
open at; the windows at the multiples of the size cut the range into slots. A window put in a
vacant slot, or in the middle of a gap once no slot is vacant, lowers one measure, so choices of
these two kinds cover the range in a number of steps the measure bounds. -/
namespace UncoveredStarts

open Classical

variable {S : Set ℕ} {extent w n : ℕ}

/-- A gap opens here: the value is missed, and the one before it is not. -/
def Opens (S : Set ℕ) (x : ℕ) : Prop := x ∉ S ∧ (x = 0 ∨ x - 1 ∈ S)

def Free (S : Set ℕ) (a b : ℕ) : Prop := ∀ y, a ≤ y → y < b → y ∉ S

noncomputable def openings (S : Set ℕ) (extent : ℕ) : Finset ℕ :=
  (Finset.range extent).filter (Opens S)

/-- The openings of the gaps that a window does not fill. -/
noncomputable def wide (S : Set ℕ) (extent w : ℕ) : Finset ℕ :=
  (openings S extent).filter fun x => x + w < extent ∧ Free S x (x + w + 1)

noncomputable def vacant (S : Set ℕ) (extent w n : ℕ) : Finset ℕ :=
  (Finset.range n).filter fun i => Free S (i * w) (min (i * w + w) extent)

def cover (S : Set ℕ) (w p : ℕ) : Set ℕ := S ∪ Set.Ico p (p + w)

theorem mem_openings {x : ℕ} : x ∈ openings S extent ↔ x < extent ∧ Opens S x := by
  simp [openings]

theorem mem_wide {x : ℕ} :
    x ∈ wide S extent w ↔ Opens S x ∧ x + w < extent ∧ Free S x (x + w + 1) := by
  simp only [wide, Finset.mem_filter, mem_openings]
  constructor
  · rintro ⟨⟨_, hx⟩, h⟩
    exact ⟨hx, h⟩
  · rintro ⟨hx, hlt, h⟩
    exact ⟨⟨by omega, hx⟩, hlt, h⟩

theorem mem_vacant {i : ℕ} :
    i ∈ vacant S extent w n ↔ i < n ∧ Free S (i * w) (min (i * w + w) extent) := by
  simp [vacant]

theorem mem_cover {x p : ℕ} : x ∈ cover S w p ↔ x ∈ S ∨ (p ≤ x ∧ x < p + w) := by
  simp [cover]

theorem Free.of_cover {a b p : ℕ} (h : Free (cover S w p) a b) : Free S a b :=
  fun y ha hb hy => h y ha hb (mem_cover.mpr (Or.inl hy))

theorem exists_opening {y : ℕ} (hy : y ∉ S) :
    ∃ c ≤ y, Opens S c ∧ Free S c (y + 1) := by
  induction y with
  | zero =>
    refine ⟨0, le_rfl, ⟨hy, Or.inl rfl⟩, fun z _ hz => ?_⟩
    obtain rfl : z = 0 := by omega
    exact hy
  | succ y ih =>
    by_cases hprev : y ∈ S
    · refine ⟨y + 1, le_rfl, ⟨hy, Or.inr hprev⟩, fun z hz1 hz2 => ?_⟩
      obtain rfl : z = y + 1 := by omega
      exact hy
    · obtain ⟨c, hc, hopens, hfree⟩ := ih hprev
      refine ⟨c, by omega, hopens, fun z hz1 hz2 => ?_⟩
      rcases Nat.lt_or_ge z (y + 1) with hz | hz
      · exact hfree z hz1 hz
      · obtain rfl : z = y + 1 := by omega
        exact hy

theorem Opens.of_cover {x p : ℕ} (h : Opens (cover S w p) x) (hx : x ≠ p + w) : Opens S x := by
  obtain ⟨hmiss, hprev⟩ := h
  rw [mem_cover, not_or] at hmiss
  refine ⟨hmiss.1, hprev.imp_right fun hprev => ?_⟩
  rcases mem_cover.mp hprev with hprev | hprev
  · exact hprev
  · omega

theorem openings_cover_subset {p : ℕ} :
    openings (cover S w p) extent ⊆ insert (p + w) (openings S extent) := by
  intro x hx
  obtain ⟨hlt, hopens⟩ := mem_openings.mp hx
  by_cases h : x = p + w
  · exact Finset.mem_insert.mpr (Or.inl h)
  · exact Finset.mem_insert_of_mem (mem_openings.mpr ⟨hlt, hopens.of_cover h⟩)

theorem card_openings_cover_le {p : ℕ} :
    (openings (cover S w p) extent).card ≤ (openings S extent).card + 1 :=
  (Finset.card_le_card openings_cover_subset).trans (Finset.card_insert_le ..)

/-- Wide gaps are more than a window apart, so at most one opens in each slot. -/
theorem card_wide_le (hw : 0 < w) (hn : extent ≤ n * w) : (wide S extent w).card ≤ n := by
  have hinj : Set.InjOn (fun x => x / w) (wide S extent w : Set ℕ) := by
    have apart : ∀ x ∈ wide S extent w, ∀ y ∈ wide S extent w, x < y → x / w < y / w := by
      intro x hx y hy hxy
      obtain ⟨_, _, hfree⟩ := mem_wide.mp hx
      obtain ⟨⟨_, hprev⟩, _, _⟩ := mem_wide.mp hy
      have hprev : y - 1 ∈ S := hprev.resolve_left (by omega)
      have hfar : x + w ≤ y := by
        by_contra hnear
        exact hfree (y - 1) (by omega) (by omega) hprev
      calc x / w < x / w + 1 := Nat.lt_succ_self _
        _ = (x + w) / w := (Nat.add_div_right x hw).symm
        _ ≤ y / w := Nat.div_le_div_right hfar
    intro x hx y hy hxy
    rcases Nat.lt_trichotomy x y with h | h | h
    · exact absurd hxy (apart x hx y hy h).ne
    · exact h
    · exact absurd hxy (apart y hy x hx h).ne'
  calc (wide S extent w).card = ((wide S extent w).image fun x => x / w).card :=
        (Finset.card_image_of_injOn hinj).symm
    _ ≤ (Finset.range n).card := by
        refine Finset.card_le_card fun q hq => ?_
        obtain ⟨x, hx, rfl⟩ := Finset.mem_image.mp hq
        obtain ⟨_, hlt, _⟩ := mem_wide.mp hx
        exact Finset.mem_range.mpr (Nat.div_lt_of_lt_mul (by rw [Nat.mul_comm]; omega))
    _ = n := Finset.card_range n

theorem card_vacant_le : (vacant S extent w n).card ≤ n :=
  (Finset.card_filter_le ..).trans_eq (Finset.card_range n)

theorem vacant_cover_subset {p : ℕ} : vacant (cover S w p) extent w n ⊆ vacant S extent w n := by
  intro i hi
  obtain ⟨hlt, hfree⟩ := mem_vacant.mp hi
  exact mem_vacant.mpr ⟨hlt, hfree.of_cover⟩

theorem exists_vacant {x : ℕ} (hw : 0 < w) (hn : extent ≤ n * w)
    (hfree : Free S x (x + 2 * w)) (hx : x + 2 * w ≤ extent) : ∃ i, i ∈ vacant S extent w n := by
  have hdiv := Nat.div_add_mod (x + w - 1) w
  have hmod := Nat.mod_lt (x + w - 1) hw
  rw [Nat.mul_comm] at hdiv
  refine ⟨(x + w - 1) / w, mem_vacant.mpr ⟨?_, fun y hy1 hy2 => hfree y (by omega) (by omega)⟩⟩
  exact Nat.lt_of_mul_lt_mul_right (a := w) (by omega)

/-- What is left to do: two for each vacant slot while there is one, one for each gap, and two for
each wide gap, of which there are as many as slots at most. -/
noncomputable def remaining (S : Set ℕ) (extent w n : ℕ) : ℕ :=
  if 0 < (vacant S extent w n).card
  then 2 * (vacant S extent w n).card + (openings S extent).card + 2 * n
  else (openings S extent).card + 2 * (wide S extent w).card

theorem remaining_le (hw : 0 < w) (hn : extent ≤ n * w) :
    remaining S extent w n ≤ 4 * n + (openings S extent).card := by
  have hvacant : (vacant S extent w n).card ≤ n := card_vacant_le
  have hwide : (wide S extent w).card ≤ n := card_wide_le hw hn
  unfold remaining
  split <;> omega

theorem remaining_fill {i : ℕ} (hw : 0 < w) (hn : extent ≤ n * w) (hlt : i * w < extent)
    (hi : i ∈ vacant S extent w n) :
    remaining (cover S w (i * w)) extent w n < remaining S extent w n := by
  have hfewer : (vacant (cover S w (i * w)) extent w n).card < (vacant S extent w n).card := by
    refine Finset.card_lt_card ((Finset.ssubset_iff_of_subset vacant_cover_subset).mpr ⟨i, hi, ?_⟩)
    intro hafter
    refine (mem_vacant.mp hafter).2 (i * w) le_rfl (by omega) (mem_cover.mpr (Or.inr ?_))
    omega
  have hgaps : (openings (cover S w (i * w)) extent).card ≤ (openings S extent).card + 1 :=
    card_openings_cover_le
  have hwide : (wide (cover S w (i * w)) extent w).card ≤ n := card_wide_le hw hn
  unfold remaining
  split <;> split <;> omega

theorem vacant_cover_eq_empty {p : ℕ} (h : vacant S extent w n = ∅) :
    vacant (cover S w p) extent w n = ∅ :=
  Finset.subset_empty.mp (h ▸ vacant_cover_subset)

theorem remaining_eq (h : vacant S extent w n = ∅) :
    remaining S extent w n = (openings S extent).card + 2 * (wide S extent w).card := by
  rw [remaining, h, Finset.card_empty, if_neg (Nat.lt_irrefl 0)]

theorem mem_wide_of_cover {x p : ℕ} (hx : x ∈ wide (cover S w p) extent w) (h : Opens S x) :
    x ∈ wide S extent w :=
  have ⟨_, hlt, hfree⟩ := mem_wide.mp hx
  mem_wide.mpr ⟨h, hlt, hfree.of_cover⟩

section

variable {a b : ℕ}

/-- A gap no longer than a window closes. A window that reaches past it into another gap moves
that one's opening and makes it no wider. -/
theorem remaining_close (hempty : vacant S extent w n = ∅) (hopens : Opens S a) (hab : a < b)
    (hb : b ≤ extent) (hend : b = extent ∨ b ∈ S) (hshort : b ≤ a + w) :
    remaining (cover S w a) extent w n < remaining S extent w n := by
  rw [remaining_eq hempty, remaining_eq (vacant_cover_eq_empty hempty)]
  have hclosed : ∀ x ∈ openings (cover S w a) extent, ¬ (a ≤ x ∧ x < a + w) := fun x hx hin =>
    (mem_openings.mp hx).2.1 (mem_cover.mpr (Or.inr hin))
  have ha : a ∈ openings S extent := mem_openings.mpr ⟨by omega, hopens⟩
  by_cases hnew : a + w ∈ openings (cover S w a) extent ∧ ¬ Opens S (a + w)
  · obtain ⟨hopen, hold⟩ := hnew
    obtain ⟨hlt, hmiss, _⟩ := mem_openings.mp hopen
    rw [mem_cover, not_or] at hmiss
    have hbS : b ∈ S := hend.resolve_left (by omega)
    have hbw : b ≠ a + w := fun h => hmiss.1 (h ▸ hbS)
    have hbefore : a + w - 1 ∉ S := fun h => hold ⟨hmiss.1, Or.inr h⟩
    obtain ⟨c, hc, hcopens, hcfree⟩ := exists_opening hbefore
    have hbc : b < c := by
      by_contra hcb
      exact hcfree b (by omega) (by omega) hbS
    have hcmem : c ∈ openings S extent := mem_openings.mpr ⟨by omega, hcopens⟩
    have hopenings : (openings (cover S w a) extent).card + 1 ≤ (openings S extent).card := by
      have hsub : openings (cover S w a) extent ⊆
          insert (a + w) (((openings S extent).erase a).erase c) := by
        intro x hx
        rcases Finset.mem_insert.mp (openings_cover_subset hx) with rfl | hmem
        · exact Finset.mem_insert_self ..
        · have hout := hclosed x hx
          exact Finset.mem_insert_of_mem
            (Finset.mem_erase.mpr ⟨by omega, Finset.mem_erase.mpr ⟨by omega, hmem⟩⟩)
      have hcard := (Finset.card_le_card hsub).trans (Finset.card_insert_le ..)
      have hca : c ∈ (openings S extent).erase a := Finset.mem_erase.mpr ⟨by omega, hcmem⟩
      have hpos := Finset.card_pos.mpr ⟨c, hca⟩
      rw [Finset.card_erase_of_mem hca] at hcard
      rw [Finset.card_erase_of_mem ha] at hcard hpos
      omega
    have hwide : (wide (cover S w a) extent w).card ≤ (wide S extent w).card := by
      by_cases hmem : a + w ∈ wide (cover S w a) extent w
      · obtain ⟨_, hfits, hfree⟩ := mem_wide.mp hmem
        have hcwide : c ∈ wide S extent w := by
          refine mem_wide.mpr ⟨hcopens, by omega, fun y hy1 hy2 => ?_⟩
          rcases Nat.lt_or_ge y (a + w) with hy | hy
          · exact hcfree y hy1 (by omega)
          · exact hfree.of_cover y hy (by omega)
        have hsub : wide (cover S w a) extent w ⊆ insert (a + w) ((wide S extent w).erase c) := by
          intro x hx
          by_cases hxe : x = a + w
          · exact Finset.mem_insert.mpr (Or.inl hxe)
          · have hout := hclosed x (Finset.mem_filter.mp hx).1
            have hxopens := (mem_wide.mp hx).1.of_cover hxe
            exact Finset.mem_insert_of_mem
              (Finset.mem_erase.mpr ⟨by omega, mem_wide_of_cover hx hxopens⟩)
        have hcard := (Finset.card_le_card hsub).trans (Finset.card_insert_le ..)
        have hpos := Finset.card_pos.mpr ⟨c, hcwide⟩
        rw [Finset.card_erase_of_mem hcwide] at hcard
        omega
      · refine Finset.card_le_card fun x hx => mem_wide_of_cover hx ?_
        exact (mem_wide.mp hx).1.of_cover fun h => hmem (h ▸ hx)
    omega
  · have hkept : ∀ x ∈ openings (cover S w a) extent, Opens S x := by
      intro x hx
      by_cases hxe : x = a + w
      · exact not_not.mp fun h => hnew ⟨hxe ▸ hx, hxe ▸ h⟩
      · exact (mem_openings.mp hx).2.of_cover hxe
    have hopenings : (openings (cover S w a) extent).card < (openings S extent).card := by
      refine Finset.card_lt_card ((Finset.ssubset_iff_of_subset fun x hx => ?_).mpr ⟨a, ha, ?_⟩)
      · exact mem_openings.mpr ⟨(mem_openings.mp hx).1, hkept x hx⟩
      · exact fun h => hclosed a h ⟨le_rfl, by omega⟩
    have hwide : (wide (cover S w a) extent w).card ≤ (wide S extent w).card :=
      Finset.card_le_card fun x hx => mem_wide_of_cover hx (hkept x (Finset.mem_filter.mp hx).1)
    omega

/-- With every slot touched a gap is less than two windows long, and a window in its middle leaves
no wide one. -/
theorem remaining_split (hw : 0 < w) (hn : extent ≤ n * w) (hempty : vacant S extent w n = ∅)
    (hopens : Opens S a) (hb : b ≤ extent) (hfree : Free S a b) (hlong : a + w < b) :
    remaining (cover S w (a + (b - a - w) / 2)) extent w n < remaining S extent w n := by
  rw [remaining_eq hempty, remaining_eq (vacant_cover_eq_empty hempty)]
  have hnone : ∀ x, Free S x (x + 2 * w) → extent < x + 2 * w := by
    intro x hx
    by_contra hle
    obtain ⟨i, hi⟩ := exists_vacant hw hn hx (not_lt.mp hle)
    exact absurd hi (hempty ▸ Finset.notMem_empty i)
  have hless : b < a + 2 * w := by
    by_contra hge
    have := hnone a fun y hy1 hy2 => hfree y hy1 (by omega)
    omega
  have ha : a ∈ wide S extent w :=
    mem_wide.mpr ⟨hopens, by omega, fun y hy1 hy2 => hfree y hy1 (by omega)⟩
  have hgaps : (openings (cover S w (a + (b - a - w) / 2)) extent).card ≤
      (openings S extent).card + 1 := card_openings_cover_le
  have hwide : (wide (cover S w (a + (b - a - w) / 2)) extent w).card < (wide S extent w).card := by
    refine Finset.card_lt_card ((Finset.ssubset_iff_of_subset fun x hx => ?_).mpr ⟨a, ha, ?_⟩)
    · refine mem_wide_of_cover hx ((mem_wide.mp hx).1.of_cover ?_)
      rintro rfl
      obtain ⟨_, hfits, hafter⟩ := mem_wide.mp hx
      have := hnone a fun y hy1 hy2 => by
        rcases Nat.lt_or_ge y b with hy | hy
        · exact hfree y hy1 hy
        · exact hafter.of_cover y (by omega) (by omega)
      omega
    · intro hafter
      refine (mem_wide.mp hafter).2.2 (a + (b - a - w) / 2) (by omega) (by omega) ?_
      exact mem_cover.mpr (Or.inr ⟨le_rfl, by omega⟩)
  omega

end

end UncoveredStarts

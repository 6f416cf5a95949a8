import Kithara.RangeRuns
import Kithara.UncoveredStarts

/-! The gaps of a set of runs: each is a longest stretch that no run touches, in ascending order,
and together they are what a range misses. Over the naturals their starts are the values the set's
gaps open at. -/
namespace RangeRuns

open UncoveredStarts

section

variable {α : Type*} [LinearOrder α]

/-- A longest stretch of the range from `first` to `last` that no run touches. -/
structure Gap (runs : List (α × α)) (first last : α) (g : α × α) : Prop where
  above : first ≤ g.1
  nonempty : g.1 < g.2
  below : g.2 ≤ last
  missed : ∀ x, g.1 ≤ x → x < g.2 → x ∉ Held runs
  opens : g.1 = first ∨ ∃ r ∈ runs, r.2 = g.1
  closes : g.2 = last ∨ g.2 ∈ Held runs

theorem Gap.skip {c d first last : α} {rest : List (α × α)} {g : α × α}
    (h : Gap rest first last g) (hd : d ≤ first) : Gap ((c, d) :: rest) first last g where
  above := h.above
  nonempty := h.nonempty
  below := h.below
  missed x hx hxg hheld := by
    rcases mem_held_cons.mp hheld with hin | hin
    · exact absurd hin.2 (not_lt.mpr (hd.trans (h.above.trans hx)))
    · exact h.missed x hx hxg hin
  opens := h.opens.imp_right fun ⟨r, hr, he⟩ => ⟨r, List.mem_cons_of_mem _ hr, he⟩
  closes := h.closes.imp_right fun hin => mem_held_cons.mpr (Or.inr hin)

theorem Gap.after {c d first last : α} {rest : List (α × α)} {g : α × α}
    (h : Gap rest d last g) (hd : first < d) : Gap ((c, d) :: rest) first last g :=
  have past := h.skip (c := c) le_rfl
  { past with
    above := hd.le.trans h.above
    opens := by
      rcases h.opens with ho | ⟨r, hr, he⟩
      · exact Or.inr ⟨(c, d), List.mem_cons_self .., ho.symm⟩
      · exact Or.inr ⟨r, List.mem_cons_of_mem _ hr, he⟩ }

theorem gapsFrom_gap {runs : List (α × α)} {first last : α} {g : α × α} (h : Canonical runs)
    (hg : g ∈ gapsFrom last first runs) : Gap runs first last g := by
  induction runs generalizing first with
  | nil =>
    simp only [gapsFrom] at hg
    split at hg
    · next hlt =>
      obtain rfl := List.mem_singleton.mp hg
      exact ⟨le_rfl, hlt, le_rfl, by simp [held_nil], Or.inl rfl, Or.inl rfl⟩
    · exact absurd hg List.not_mem_nil
  | cons r rest ih =>
    obtain ⟨c, d⟩ := r
    simp only [gapsFrom] at hg
    split at hg
    · next hdf => exact (ih h.tail hg).skip hdf
    · next hfd =>
      rw [not_le] at hfd
      rcases List.mem_append.mp hg with hg | hg
      · split at hg
        · next hgap =>
          obtain rfl := List.mem_singleton.mp hg
          refine ⟨le_rfl, hgap, min_le_right _ _, fun x _ hx hheld => ?_, Or.inl rfl, ?_⟩
          · have hxc : x < c := lt_of_lt_of_le hx (min_le_left _ _)
            rcases mem_held_cons.mp hheld with hin | hin
            · exact absurd hxc (not_lt.mpr hin.1)
            · exact absurd (hxc.trans (h.1 (c, d) (by simp))) (not_lt.mpr (h.lt_of_mem hin).le)
          · rcases le_total c last with hc | hc
            · refine Or.inr (mem_held_cons.mpr (Or.inl ?_))
              rw [min_eq_left hc]
              exact ⟨le_rfl, h.1 (c, d) (by simp)⟩
            · exact Or.inl (min_eq_right hc)
        · exact absurd hg List.not_mem_nil
      · split at hg
        · exact (ih h.tail hg).after hfd
        · exact absurd hg List.not_mem_nil

theorem exists_gapsFrom {runs : List (α × α)} {first last x : α} (h : Canonical runs)
    (hx : first ≤ x) (hlast : x < last) (hmiss : x ∉ Held runs) :
    ∃ g ∈ gapsFrom last first runs, g.1 ≤ x ∧ x < g.2 := by
  induction runs generalizing first with
  | nil =>
    refine ⟨(first, last), ?_, hx, hlast⟩
    simp [gapsFrom, lt_of_le_of_lt hx hlast]
  | cons r rest ih =>
    obtain ⟨c, d⟩ := r
    rw [mem_held_cons, not_or] at hmiss
    simp only [gapsFrom]
    split
    · exact ih h.tail hx hmiss.2
    · rcases lt_or_ge x c with hxc | hcx
      · refine ⟨(first, min c last), List.mem_append_left _ ?_, hx, lt_min hxc hlast⟩
        rw [if_pos (lt_of_le_of_lt hx (lt_min hxc hlast))]
        exact List.mem_singleton_self _
      · have hdx : d ≤ x := not_lt.mp fun hxd => hmiss.1 ⟨hcx, hxd⟩
        obtain ⟨g, hg, hin⟩ := ih h.tail hdx hmiss.2
        refine ⟨g, List.mem_append_right _ ?_, hin⟩
        rwa [if_pos (lt_of_le_of_lt hdx hlast)]

theorem gapsFrom_sorted {runs : List (α × α)} {first last : α} (h : Canonical runs) :
    (gapsFrom last first runs).Pairwise fun g g' => g.1 < g'.1 := by
  induction runs generalizing first with
  | nil =>
    simp only [gapsFrom]
    split
    · exact List.pairwise_singleton ..
    · exact List.Pairwise.nil
  | cons r rest ih =>
    obtain ⟨c, d⟩ := r
    simp only [gapsFrom]
    split
    · exact ih h.tail
    · next hfd =>
      rw [not_le] at hfd
      refine List.pairwise_append.mpr ⟨?_, ?_, ?_⟩
      · split
        · exact List.pairwise_singleton ..
        · exact List.Pairwise.nil
      · split
        · exact ih h.tail
        · exact List.Pairwise.nil
      · intro g hg g' hg'
        split at hg
        · obtain rfl := List.mem_singleton.mp hg
          split at hg'
          · exact lt_of_lt_of_le hfd (gapsFrom_gap h.tail hg').above
          · exact absurd hg' List.not_mem_nil
        · exact absurd hg List.not_mem_nil

theorem Canonical.first_le {c d x : α} {rest : List (α × α)} (h : Canonical ((c, d) :: rest))
    (hx : x ∈ Held ((c, d) :: rest)) : c ≤ x := by
  rcases mem_held_cons.mp hx with hin | hin
  · exact hin.1
  · exact ((h.1 (c, d) List.mem_cons_self).trans (h.lt_of_mem hin)).le

theorem Canonical.first_mem {c d : α} {rest : List (α × α)} (h : Canonical ((c, d) :: rest)) :
    c ∈ Held ((c, d) :: rest) :=
  mem_held_cons.mpr (Or.inl ⟨le_rfl, h.1 (c, d) List.mem_cons_self⟩)

/-- The first run's end is not held, so of two lists that hold the same the one's first run ends
no earlier than the other's. -/
theorem Canonical.first_stop_le {c d d' : α} {rest rest' : List (α × α)}
    (h : Canonical ((c, d) :: rest))
    (heq : Held ((c, d) :: rest) = Held ((c, d') :: rest')) : d' ≤ d := by
  by_contra hlt
  rw [not_le] at hlt
  have hin : d ∈ Held ((c, d) :: rest) := by
    rw [heq]
    exact mem_held_cons.mpr (Or.inl ⟨(h.1 (c, d) List.mem_cons_self).le, hlt⟩)
  rcases mem_held_cons.mp hin with hin | hin
  · exact absurd hin.2 (lt_irrefl d)
  · exact absurd (h.lt_of_mem hin) (lt_irrefl d)

theorem Canonical.eq_of_held {runs runs' : List (α × α)} (h : Canonical runs)
    (h' : Canonical runs') (heq : Held runs = Held runs') : runs = runs' := by
  induction runs generalizing runs' with
  | nil =>
    cases runs' with
    | nil => rfl
    | cons r rest =>
      have hin := h'.first_mem
      rw [← heq, held_nil] at hin
      exact absurd hin (Set.notMem_empty _)
  | cons r rest ih =>
    obtain ⟨c, d⟩ := r
    cases runs' with
    | nil =>
      have hin := h.first_mem
      rw [heq, held_nil] at hin
      exact absurd hin (Set.notMem_empty _)
    | cons r' rest' =>
      obtain ⟨c', d'⟩ := r'
      have hc : c = c' :=
        le_antisymm (h.first_le (heq ▸ h'.first_mem)) (h'.first_le (heq ▸ h.first_mem))
      subst hc
      have hd : d = d' := le_antisymm (h'.first_stop_le heq.symm) (h.first_stop_le heq)
      subst hd
      have hrest : Held rest = Held rest' := by
        ext x
        have hx := Set.ext_iff.mp heq x
        rw [mem_held_cons, mem_held_cons] at hx
        constructor
        · intro hin
          exact (hx.mp (Or.inr hin)).resolve_left fun hr =>
            absurd (h.lt_of_mem hin) (not_lt.mpr hr.2.le)
        · intro hin
          exact (hx.mpr (Or.inr hin)).resolve_left fun hr =>
            absurd (h'.lt_of_mem hin) (not_lt.mpr hr.2.le)
      rw [ih h.tail h'.tail hrest]

namespace RangeSet

variable {s : RangeSet α} {a b x : α} {g : α × α}

theorem gap_of_mem (h : g ∈ s.gaps a b) : Gap s.runs a b g := gapsFrom_gap s.canonical h

theorem exists_gap (ha : a ≤ x) (hb : x < b) (hx : x ∉ s) : ∃ g ∈ s.gaps a b, g.1 ≤ x ∧ x < g.2 :=
  exists_gapsFrom s.canonical ha hb hx

end RangeSet

end

section

variable {s : RangeSet ℕ} {extent w p : ℕ}

/-- The values a set of runs holds. -/
def RangeSet.values (s : RangeSet ℕ) : Set ℕ := {x | x ∈ s}

theorem Gap.opens_at {g : ℕ × ℕ} (h : Gap s.runs 0 extent g) : Opens s.values g.1 := by
  refine ⟨h.missed g.1 le_rfl h.nonempty, h.opens.imp_right ?_⟩
  rintro ⟨r, hr, he⟩
  have hlt := s.canonical.1 r hr
  exact ⟨r, hr, by omega, by omega⟩

theorem Gap.free {g : ℕ × ℕ} (h : Gap s.runs 0 extent g) : Free s.values g.1 g.2 := h.missed

/-- There are as many gaps as values the set's gaps open at. -/
theorem card_openings : (openings s.values extent).card = (s.gaps 0 extent).length := by
  have hnodup : ((s.gaps 0 extent).map Prod.fst).Nodup :=
    List.pairwise_map.mpr ((gapsFrom_sorted s.canonical).imp fun h => h.ne)
  have hsame : openings s.values extent = ((s.gaps 0 extent).map Prod.fst).toFinset := by
    ext x
    rw [mem_openings, List.mem_toFinset, List.mem_map]
    constructor
    · rintro ⟨hlt, hmiss, hprev⟩
      obtain ⟨g, hg, hge, hlt⟩ := RangeSet.exists_gap (Nat.zero_le x) hlt hmiss
      refine ⟨g, hg, ?_⟩
      by_contra hne
      have hheld := hprev.resolve_left (by omega)
      exact (RangeSet.gap_of_mem hg).missed (x - 1) (by omega) (by omega) hheld
    · rintro ⟨g, hg, rfl⟩
      have hgap := RangeSet.gap_of_mem hg
      exact ⟨hgap.nonempty.trans_le hgap.below, hgap.opens_at⟩
  rw [hsame, List.toFinset_card_of_nodup hnodup, List.length_map]

theorem values_insert : (s.insert p (p + w)).values = cover s.values w p := by
  ext x
  rw [mem_cover]
  exact RangeSet.mem_insert.trans or_comm

end

end RangeRuns

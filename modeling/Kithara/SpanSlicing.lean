import Kithara.SpanInvariant

/-! Slicing and joining: a slice reads the positions of the span it was cut from, the two parts
of a cut join back to the whole, and a join reads both of its parts. -/
namespace SpanSlicing

open CheckedArithmetic SpanRatio SpanMapping SpanGeometry SpanInvariant ArithmeticProgression

variable {C : Type} [ExponentialApproach C]

/-- What a slice or a joined successor keeps of the mapping it continues at frame `a`. -/
structure Continues (m t : Rational) (a M : ℕ) : Prop where
  origin : (t.numerator : ℤ) = m.progression.value a
  step : 0 < M → (t.step : ℤ) = m.progression.stepAt a
  change : t.stepChange = m.stepChange
  denominator : t.denominator = m.denominator

theorem continues_numeratorAt {m t : Rational} {N a M k : ℕ} (h : Progress m N)
    (hc : Continues m t a M) (haM : a + M ≤ N) (hk : k ≤ M) :
    t.numeratorAt k = m.numeratorAt (a + k) := by
  have ht := h.tail haM hc.origin hc.step hc.change
  obtain ⟨n, hn, hnv⟩ := ht.interior hk
  obtain ⟨e, he, hev⟩ := h.interior (show a + k ≤ N by omega)
  have hv := tail_value hk hc.origin hc.step hc.change
  have hne : n = e := by omega
  rw [hn, he, hne]

theorem continues_ratioAt {m t : Rational} {N a M k : ℕ} (h : Progress m N)
    (hc : Continues m t a M) (haM : a + M ≤ N) (hk : k ≤ M) :
    (Mapping.rational t : Mapping C).ratioAt k = (Mapping.rational m : Mapping C).ratioAt (a + k) := by
  simp only [Mapping.ratioAt, continues_numeratorAt h hc haM hk, hc.denominator]

theorem sliced_continues {m : Rational} {N a M : ℕ} (h : Progress m N) (hw : m.step < 2 ^ 128)
    (haM : a + M ≤ N) : ∃ t, m.sliced a M = some t ∧ Continues m t a M := by
  obtain ⟨n, hn, hnv⟩ := h.interior (show a ≤ N by omega)
  by_cases hempty : M = 0 ∧ m.stepChange ≠ 0
  · refine ⟨⟨n, m.denominator, 0, m.stepChange⟩, ?_, hnv, by omega, rfl, rfl⟩
    simp [Rational.sliced, hn, hempty]
  · have hstep : ∃ s, m.stepAt a = some s ∧ (0 < M → (s : ℤ) = m.progression.stepAt a) := by
      rcases Nat.eq_zero_or_pos M with hM | hM
      · have hc : m.stepChange = 0 := by
          by_contra hne
          exact hempty ⟨hM, hne⟩
        refine ⟨m.step, stepAt_eq_some.mpr ⟨by simp [hc], ?_, fun _ => hw⟩, by omega⟩
        simp [hc, Progression.stepAt, Rational.progression]
      · obtain ⟨s, hs, hsv⟩ := h.stepAt (show a < N by omega)
        exact ⟨s, hs, fun _ => hsv⟩
    obtain ⟨s, hs, hsv⟩ := hstep
    refine ⟨⟨n, m.denominator, s, m.stepChange⟩, ?_, hnv, hsv, rfl, rfl⟩
    simp [Rational.sliced, hn, hempty, hs]

theorem continues_validate {m t : Rational} {N a M : ℕ} (h : Progress m N)
    (hfit : ∀ n, m.numeratorAt N = some n → n / m.denominator < 2 ^ 64)
    (hc : Continues m t a M) (haM : a + M ≤ N) :
    (Mapping.rational t : Mapping C).validate M = some () := by
  obtain ⟨e, he, hev⟩ := h.numeratorAt
  have hlast := hfit e he
  have fits {n k : ℕ} (hk : k ≤ N) (hn : (n : ℤ) = m.progression.value k) :
      n / t.denominator < 2 ^ 64 := by
    have hle := h.value_le hk le_rfl
    have hne : n ≤ e := by omega
    rw [hc.denominator]
    exact lt_of_le_of_lt (Nat.div_le_div_right hne) hlast
  refine validate_rational.mpr ⟨h.tail haM hc.origin hc.step hc.change, ?_, ?_⟩
  · exact fits (show a ≤ N by omega) hc.origin
  · intro n hn
    rw [continues_numeratorAt h hc haM le_rfl] at hn
    exact fits haM (numeratorAt_eq_some.mp hn).2.2.2.2.2.1

section Slices

variable {s : SourceSpan C} {m : Rational} (hv : Validated s) (hm : s.mapping = .rational m)
include hv hm

theorem wide_step : m.step < 2 ^ 128 := by
  have h := hv.wide
  rw [hm] at h
  exact h.step

/-- The slicing operation on a range within the span, the whole range included. -/
theorem forOutputRange_eq {a b : ℕ} (hab : a ≤ b) (hb : b ≤ s.outputFrames) :
    ∃ t, Continues m t a (b - a) ∧
      s.forOutputRange a b = some { s with mapping := .rational t, outputFrames := b - a } := by
  have hp := validated_progress hv hm
  by_cases hwhole : a = 0 ∧ b = s.outputFrames ∧ s.outputFrames ≠ 0
  · obtain ⟨rfl, rfl, hne⟩ := hwhole
    refine ⟨m, ⟨by simp, by simp, rfl, rfl⟩, ?_⟩
    rw [← hm]
    simp [SourceSpan.forOutputRange, hne]
  · obtain ⟨t, ht, hc⟩ := sliced_continues hp (wide_step hv hm)
      (show a + (b - a) ≤ s.outputFrames by omega)
    have hvalid : (Mapping.rational t : Mapping C).validate (b - a) = some () :=
      continues_validate hp (fun n hn => last_fits hv hm hn) hc (by omega)
    refine ⟨t, hc, ?_⟩
    rw [SourceSpan.forOutputRange, if_neg (by omega), if_neg hwhole]
    simp [hm, Mapping.sliced, ht, hvalid]

theorem slice_sourceRatioAt {a b : ℕ} (hab : a ≤ b) (hb : b ≤ s.outputFrames) :
    ∃ v, s.forOutputRange a b = some v ∧
      ∀ k, k ≤ b - a → v.sourceRatioAt k = s.sourceRatioAt (a + k) := by
  obtain ⟨t, hc, ht⟩ := forOutputRange_eq hv hm hab hb
  refine ⟨_, ht, ?_⟩
  intro k hk
  rw [sourceRatioAt_inside (s := { s with mapping := .rational t, outputFrames := b - a }) hk,
    sourceRatioAt_inside (show a + k ≤ s.outputFrames by omega), hm]
  exact continues_ratioAt (validated_progress hv hm) hc (by omega) hk

theorem cut_followedBy {c : ℕ} (hc : 0 < c) (hcN : c < s.outputFrames) :
    ∃ v w, s.forOutputRange 0 c = some v ∧ s.forOutputRange c s.outputFrames = some w ∧
      v.followedBy w = some s := by
  have hp := validated_progress hv hm
  obtain ⟨t, ht, htv⟩ := forOutputRange_eq hv hm (Nat.zero_le c) hcN.le
  obtain ⟨u, hu, huv⟩ := forOutputRange_eq hv hm hcN.le le_rfl
  have htm : t = m := by
    have hstep := ht.step (by omega)
    have horigin := ht.origin
    rw [progression_value_zero] at horigin
    rw [progression_stepAt_zero] at hstep
    exact Rational.ext (by exact_mod_cast horigin) ht.denominator (by exact_mod_cast hstep) ht.change
  subst htm
  obtain ⟨e, he, hev⟩ := hp.stepAt hcN
  obtain ⟨n, hn, hnv⟩ := hp.interior hcN.le
  have hjoin : t.followedBy u c = some t := by
    refine rational_followedBy_eq_some.mpr ⟨rfl, ?_, hu.change.symm, hu.denominator.symm, ?_⟩
    · have hstep := hu.step (by omega)
      rw [he]
      exact congrArg some (by omega)
    · have horigin := hu.origin
      rw [hn]
      exact congrArg some (by omega)
  have hsum : c + (s.outputFrames - c) = s.outputFrames := by omega
  refine ⟨_, _, htv, huv, followedBy_eq_some.mpr ⟨rfl, rfl, rfl, ?_, ?_, ?_, ?_⟩⟩
  · simp [Mapping.followedBy, hjoin]
  · have := hv.frames_lt
    simpa [hsum] using this
  · have := hv.valid
    rw [hm] at this
    simpa [hsum] using this
  · cases s
    simp_all

end Slices

theorem approach_ratioAt_add {a next : Approach C} {frames k : ℕ}
    (h : a.followedBy next frames = some a) :
    a.ratioAt (frames + k) = next.ratioAt k := by
  obtain ⟨_, hc, ho, ha, he, _⟩ := approach_followedBy_eq_some.mp h
  simp only [Approach.ratioAt, Approach.advanceAt, hc, ho, ha, ← he, checkedAdd_assoc]

theorem joined_sourceRatioAt {t u j : SourceSpan C} (h : t.followedBy u = some j) :
    (∀ k, k ≤ t.outputFrames → j.sourceRatioAt k = t.sourceRatioAt k) ∧
      ∀ k, k ≤ u.outputFrames → j.sourceRatioAt (t.outputFrames + k) = u.sourceRatioAt k := by
  obtain ⟨_, _, _, hm, _, hvalid, rfl⟩ := followedBy_eq_some.mp h
  constructor
  · intro k hk
    rw [sourceRatioAt_inside hk, sourceRatioAt_inside (by show k ≤ _ + _; omega)]
  · intro k hk
    rw [sourceRatioAt_inside hk, sourceRatioAt_inside (by show _ + k ≤ _ + _; omega)]
    show t.mapping.ratioAt (t.outputFrames + k) = u.mapping.ratioAt k
    cases ht : t.mapping with
    | rational m =>
      cases hu : u.mapping with
      | rational next =>
        rw [ht, hu] at hm
        rw [ht] at hvalid
        obtain ⟨r, hr, _⟩ := Option.map_eq_some_iff.mp hm
        obtain ⟨_, hstep, hchange, hden, hnum⟩ := rational_followedBy_eq_some.mp hr
        have hp := (validate_rational.mp hvalid).1
        have hcont : Continues m next t.outputFrames u.outputFrames :=
          ⟨(numeratorAt_eq_some.mp hnum).2.2.2.2.2.1,
            fun _ => (stepAt_eq_some.mp hstep).2.1, hchange.symm, hden.symm⟩
        exact (continues_ratioAt hp hcont le_rfl hk).symm
      | approach next => simp [ht, hu, Mapping.followedBy] at hm
    | approach a =>
      cases hu : u.mapping with
      | rational next => simp [ht, hu, Mapping.followedBy] at hm
      | approach next =>
        rw [ht, hu] at hm
        obtain ⟨r, hr, hra⟩ := Option.map_eq_some_iff.mp hm
        obtain rfl : r = a := Mapping.approach.inj hra
        exact approach_ratioAt_add hr

/-- Slicing and joining are exact on every reachable rational span. -/
theorem slicing_joining_exact :
    (∀ (s : SourceSpan C) (m : Rational), Reachable s → s.mapping = .rational m →
      (∀ a b, a ≤ b → b ≤ s.outputFrames → ∃ v, s.forOutputRange a b = some v ∧
        ∀ k, k ≤ b - a → v.sourceRatioAt k = s.sourceRatioAt (a + k)) ∧
      ∀ c, 0 < c → c < s.outputFrames → ∃ v w, s.forOutputRange 0 c = some v ∧
        s.forOutputRange c s.outputFrames = some w ∧ v.followedBy w = some s) ∧
    ∀ t u j : SourceSpan C, t.followedBy u = some j →
      (∀ k, k ≤ t.outputFrames → j.sourceRatioAt k = t.sourceRatioAt k) ∧
        ∀ k, k ≤ u.outputFrames → j.sourceRatioAt (t.outputFrames + k) = u.sourceRatioAt k := by
  refine ⟨?_, fun t u j h => joined_sourceRatioAt h⟩
  intro s m hs hm
  have hv := reachable_validated hs
  exact ⟨fun a b hab hb => slice_sourceRatioAt hv hm hab hb,
    fun c hc hcN => cut_followedBy hv hm hc hcN⟩

theorem slicing_joining_slowing :
    ∃ v w, slowingSpan.forOutputRange 0 3 = some v ∧ slowingSpan.forOutputRange 3 4 = some w ∧
      v.followedBy w = some slowingSpan :=
  (slicing_joining_exact.1 slowingSpan slowing slowing_reachable rfl).2 3 (by decide) (by decide)

end SpanSlicing

import Kithara.SpanInvariant

/-! Exact rescaling: every frame of a rescaled span is the affine image of the same frame
before, hence nested clocks evaluate, scalings compose, and moving a pivot back undoes it. -/
namespace SpanScaling

open CheckedArithmetic SpanRatio SpanAffine SpanMapping SpanGeometry SpanInvariant
  ArithmeticProgression

variable {C : Type} [ExponentialApproach C]

/-- The exact value of a numerator over a denominator. -/
def exact (pair : ℕ × ℕ+) : ℚ := pair.1 / (pair.2 : ℕ)

/-- An affine span's own position at any output coordinate. -/
def affinePosition (s : SourceSpan C) (x : ℚ) : ℚ :=
  match s.mapping with
  | .rational m => (m.numerator : ℚ) / (m.denominator : ℕ) + x * ((m.step : ℚ) / (m.denominator : ℕ))
  | .approach _ => 0

omit [ExponentialApproach C] in
theorem affineBasis_eq_some {s : SourceSpan C} {origin step : Ratio} :
    s.affineBasis = some (origin, step) ↔ ∃ m, s.mapping = .rational m ∧ m.stepChange = 0 ∧
      Ratio.new m.numerator m.denominator = some origin ∧
      Ratio.new m.step m.denominator = some step := by
  simp only [SourceSpan.affineBasis]
  constructor
  · intro h
    split at h
    · next m hm =>
      split at h
      · next hc =>
        simp only [Option.bind_eq_bind, Option.bind_eq_some_iff, Option.pure_def,
          Option.some.injEq, Prod.mk.injEq] at h
        obtain ⟨o, ho, st, hst, rfl, rfl⟩ := h
        exact ⟨m, hm, hc, ho, hst⟩
      · contradiction
    · contradiction
  · rintro ⟨m, hm, hc, ho, hst⟩
    simp [hm, hc, ho, hst]

theorem affine_position {m : Rational} (hc : m.stepChange = 0) (k : ℕ) :
    m.position k = (m.numerator : ℚ) / (m.denominator : ℕ) +
      k * ((m.step : ℚ) / (m.denominator : ℕ)) := by
  have hd := pnat_ne_zero m.denominator
  simp only [Rational.position, Progression.value, Rational.progression, hc]
  push_cast
  field_simp
  ring

omit [ExponentialApproach C] in
theorem affineBasis_position {s : SourceSpan C} {origin step : Ratio}
    (h : s.affineBasis = some (origin, step)) :
    ∃ m, s.mapping = .rational m ∧ (∀ x, affinePosition s x = origin.toRat + x * step.toRat) ∧
      ∀ k : ℕ, m.position k = affinePosition s k := by
  obtain ⟨m, hm, hc, ho, hst⟩ := affineBasis_eq_some.mp h
  refine ⟨m, hm, ?_, ?_⟩
  · intro x
    simp only [affinePosition, hm, new_toRat ho, new_toRat hst]
  · intro k
    simp only [affinePosition, hm, affine_position hc]

theorem scaledFrom_position {s t : SourceSpan C} {m : Rational} (hm : s.mapping = .rational m)
    {pivot position scale : ℕ × ℕ+} (h : s.scaledFrom pivot position scale = some t) :
    ∃ r, t.mapping = .rational r ∧ t.outputFrames = s.outputFrames ∧
      ∀ k, r.position k = exact position + exact scale * (m.position k - exact pivot) := by
  obtain ⟨p, q, c, affine, mapping, hp, hq, hc, ha, ht, _, rfl⟩ := scaledFrom_eq_some.mp h
  rw [hm] at ht
  obtain ⟨r, hr, rfl⟩ := Option.map_eq_some_iff.mp ht
  refine ⟨r, rfl, rfl, fun k => ?_⟩
  rw [transformed_position hr, new_eval ha, new_toRat hp, new_toRat hq, new_toRat hc]
  rfl

theorem exact_ratio (r : Ratio) : exact (r.numerator, r.denominator) = r.toRat := rfl

theorem sourceRatioAt_congr {s t : SourceSpan C} {m r : Rational} (hs : Validated s)
    (ht : Validated t) (hm : s.mapping = .rational m) (hr : t.mapping = .rational r) {f : ℕ}
    (hfs : f ≤ s.outputFrames) (hft : f ≤ t.outputFrames) (h : m.position f = r.position f) :
    s.sourceRatioAt f = t.sourceRatioAt f := by
  obtain ⟨n, x, _, hnv, hx, hsx⟩ := sourceRatioAt_eq hs hm hfs
  obtain ⟨e, y, _, hev, hy, hty⟩ := sourceRatioAt_eq ht hr hft
  rw [Rational.position, Rational.position, ← hnv, ← hev, Int.cast_natCast, Int.cast_natCast,
    div_eq_div_iff (pnat_ne_zero _) (pnat_ne_zero _)] at h
  have hxy : Ratio.new n m.denominator = Ratio.new e r.denominator :=
    new_congr (by exact_mod_cast h)
  rw [hsx, hty, ← hx, ← hy, hxy]

theorem sourceRatioAt_scaled {s t : SourceSpan C} {m : Rational} (hs : Validated s)
    (hm : s.mapping = .rational m) {pivot position scale : ℕ × ℕ+}
    (h : s.scaledFrom pivot position scale = some t) {k : ℕ} (hk : k ≤ s.outputFrames) :
    ∃ x y, s.sourceRatioAt k = some x ∧ t.sourceRatioAt k = some y ∧
      y.toRat = exact position + exact scale * (x.toRat - exact pivot) := by
  obtain ⟨r, hr, hframes, hpos⟩ := scaledFrom_position hm h
  obtain ⟨x, hx, hxv⟩ := sourceRatioAt_position hs hm hk
  obtain ⟨y, hy, hyv⟩ := sourceRatioAt_position (scaledFrom_validated hs h) hr
    (show k ≤ t.outputFrames by omega)
  exact ⟨x, y, hx, hy, by rw [hxv, hyv, hpos]⟩

theorem sourceRatioAt_mapped {i p t : SourceSpan C} {m : Rational} (hp : Validated p)
    (hm : p.mapping = .rational m) {origin : ℕ} (h : i.mapOutputSpan origin p = some t) {k : ℕ}
    (hk : k ≤ p.outputFrames) :
    ∃ x y, p.sourceRatioAt k = some x ∧ t.sourceRatioAt k = some y ∧
      y.toRat = exact (p.sampleRate, i.sampleRate) * affinePosition i (x.toRat - origin) := by
  obtain ⟨first, step, rate, start, advance, hb, hrate, hstart, hadvance, hscaled⟩ :=
    mapOutputSpan_eq_some.mp h
  obtain ⟨x, y, hx, hy, hv⟩ := sourceRatioAt_scaled hp hm hscaled hk
  obtain ⟨_, _, haffine, _⟩ := affineBasis_position hb
  refine ⟨x, y, hx, hy, ?_⟩
  rw [hv, exact_ratio, exact_ratio, mul_toRat hstart, mul_toRat hadvance, new_toRat hrate, haffine]
  simp only [exact, PNat.one_coe, Nat.cast_one, div_one]
  ring

theorem sourceRatioAt_affine {i : SourceSpan C} (hi : Validated i) {origin step : Ratio}
    (hb : i.affineBasis = some (origin, step)) {k : ℕ} (hk : k ≤ i.outputFrames) :
    ∃ x, i.sourceRatioAt k = some x ∧ x.toRat = affinePosition i k := by
  obtain ⟨m, hm, _, hpos⟩ := affineBasis_position hb
  obtain ⟨x, hx, hxv⟩ := sourceRatioAt_position hi hm hk
  exact ⟨x, hx, by rw [hxv, hpos]⟩

theorem rebase_advance {origin step distance advance position : Ratio} {previous next : ℕ}
    (hd : Ratio.new (max previous next - min previous next) 1 = some distance)
    (ha : step.mul distance = some advance)
    (hp : (if next < previous then origin.sub advance else origin.add advance) = some position) :
    position.toRat = origin.toRat + step.toRat * ((next : ℚ) - previous) := by
  have hdist := new_toRat hd
  have hadv := mul_toRat ha
  split at hp
  · next hlt =>
    rw [max_eq_left hlt.le, min_eq_right hlt.le, Nat.cast_sub hlt.le] at hdist
    rw [sub_toRat hp, hadv, hdist]
    simp only [PNat.one_coe, Nat.cast_one, div_one]
    ring
  · next hge =>
    have hle : previous ≤ next := by omega
    rw [max_eq_right hle, min_eq_left hle, Nat.cast_sub hle] at hdist
    rw [add_toRat hp, hadv, hdist]
    simp only [PNat.one_coe, Nat.cast_one, div_one]

/-- Moving the pivot shifts an affine span by its own advance between the two pivots. -/
theorem rebaseOutput_position {s t : SourceSpan C} {previous next : ℕ}
    (h : s.rebaseOutput previous next = some t) :
    ∃ m r step, s.mapping = .rational m ∧ t.mapping = .rational r ∧
      t.outputFrames = s.outputFrames ∧ m.position 1 = m.position 0 + step ∧
      ∀ k, r.position k = m.position k + step * ((next : ℚ) - previous) := by
  obtain ⟨origin, step, distance, advance, position, hb, hd, ha, hp, hscaled⟩ :=
    rebaseOutput_eq_some.mp h
  obtain ⟨m, hm, haffine, hpos⟩ := affineBasis_position hb
  obtain ⟨r, hr, hframes, hrv⟩ := scaledFrom_position hm hscaled
  refine ⟨m, r, step.toRat, hm, hr, hframes, ?_, ?_⟩
  · rw [hpos, hpos, haffine, haffine]
    push_cast
    ring
  · intro k
    rw [hrv, exact_ratio, exact_ratio, rebase_advance hd ha hp]
    simp only [exact, PNat.one_coe, Nat.cast_one, div_one]
    ring

theorem sourceRatioAt_rebased {s t u : SourceSpan C} (hs : Validated s) {a b : ℕ}
    (ht : s.rebaseOutput a b = some t) (hu : t.rebaseOutput b a = some u) {k : ℕ}
    (hk : k ≤ s.outputFrames) : u.sourceRatioAt k = s.sourceRatioAt k := by
  obtain ⟨m, r, step, hm, hr, hframes, hone, hpos⟩ := rebaseOutput_position ht
  obtain ⟨r', v, step', hr', hv, hframes', hone', hpos'⟩ := rebaseOutput_position hu
  obtain rfl : r = r' := Mapping.rational.inj (hr.symm.trans hr')
  have hstep : step' = step := by
    rw [hpos, hpos, hone] at hone'
    linarith
  obtain ⟨_, _, _, _, _, _, _, _, _, hts⟩ := rebaseOutput_eq_some.mp ht
  obtain ⟨_, _, _, _, _, _, _, _, _, hus⟩ := rebaseOutput_eq_some.mp hu
  have hvt := scaledFrom_validated hs hts
  refine sourceRatioAt_congr (scaledFrom_validated hvt hus) hs hv hm (by omega) hk ?_
  rw [hpos', hpos, hstep]
  ring

/-- Rescaling is exact at every frame: the nested clock, the composition of two scalings and
the way back from a moved pivot all evaluate to their exact affine maps. -/
theorem rescaling_exact (s : SourceSpan C) (hs : Reachable s) :
    (∀ m pivot position scale t, s.mapping = .rational m →
      s.scaledFrom pivot position scale = some t → ∀ k, k ≤ s.outputFrames →
      ∃ x y, s.sourceRatioAt k = some x ∧ t.sourceRatioAt k = some y ∧
        y.toRat = exact position + exact scale * (x.toRat - exact pivot)) ∧
    (∀ m i origin t, s.mapping = .rational m → Reachable i → i.mapOutputSpan origin s = some t →
      (∀ k, k ≤ i.outputFrames → ∃ x, i.sourceRatioAt k = some x ∧
        x.toRat = affinePosition i k) ∧
      ∀ k, k ≤ s.outputFrames → ∃ x y, s.sourceRatioAt k = some x ∧ t.sourceRatioAt k = some y ∧
        y.toRat = exact (s.sampleRate, i.sampleRate) * affinePosition i (x.toRat - origin)) ∧
    (∀ m pivot position scale pivot' position' scale' t u, s.mapping = .rational m →
      s.scaledFrom pivot position scale = some t → t.scaledFrom pivot' position' scale' = some u →
      ∀ k, k ≤ s.outputFrames → ∃ x y, s.sourceRatioAt k = some x ∧ u.sourceRatioAt k = some y ∧
        y.toRat = exact position' + exact scale' *
          (exact position + exact scale * (x.toRat - exact pivot) - exact pivot')) ∧
    ∀ a b t u, s.rebaseOutput a b = some t → t.rebaseOutput b a = some u →
      ∀ k, k ≤ s.outputFrames → u.sourceRatioAt k = s.sourceRatioAt k := by
  have hv := reachable_validated hs
  refine ⟨?_, ?_, ?_, ?_⟩
  · intro m pivot position scale t hm ht k hk
    exact sourceRatioAt_scaled hv hm ht hk
  · intro m i origin t hm hi ht
    obtain ⟨first, step, _, _, _, hb, _⟩ := mapOutputSpan_eq_some.mp ht
    exact ⟨fun k hk => sourceRatioAt_affine (reachable_validated hi) hb hk,
      fun k hk => sourceRatioAt_mapped hv hm ht hk⟩
  · intro m pivot position scale pivot' position' scale' t u hm ht hu k hk
    obtain ⟨r, hr, hframes, _⟩ := scaledFrom_position hm ht
    obtain ⟨x, y, hx, hy, hxy⟩ := sourceRatioAt_scaled hv hm ht hk
    obtain ⟨y', z, hy', hz, hyz⟩ := sourceRatioAt_scaled (scaledFrom_validated hv ht) hr hu
      (show k ≤ t.outputFrames by omega)
    obtain rfl : y = y' := Option.some.inj (hy.symm.trans hy')
    exact ⟨x, z, hx, hz, by rw [hyz, hxy]⟩
  · intro a b t u ht hu k hk
    exact sourceRatioAt_rebased hv ht hu hk

def slowingScaled : SourceSpan SteadyRate :=
  { slowingSpan with mapping := .rational ⟨40, Nat.succPNat 3, 12, -3⟩ }

theorem slowing_scaledFrom :
    slowingSpan.scaledFrom (0, 1) (10, 1) (3, 2) = some slowingScaled := by
  simp only [SourceSpan.scaledFrom, slowingSpan, slowing, Ratio.new, Ratio.mul, Ratio.common,
    Ratio.atDenominator, Ratio.add, Ratio.combine, Ratio.sourceFrame, Offset.difference,
    Offset.apply, Affine.new, Affine.apply, Affine.scaleBy, Mapping.transformed,
    Rational.transformed, Mapping.validate, Mapping.lastStep, Mapping.ratioAt, divisor_eq_gcd,
    quotient_eq_div]
  rfl

theorem rescaling_exact_slowing :
    ∃ x y, slowingSpan.sourceRatioAt 3 = some x ∧ slowingScaled.sourceRatioAt 3 = some y ∧
      y.toRat = exact (10, 1) + exact (3, 2) * (x.toRat - exact (0, 1)) :=
  (rescaling_exact slowingSpan slowing_reachable).1 slowing (0, 1) (10, 1) (3, 2) slowingScaled rfl
    slowing_scaledFrom 3 (by decide)

end SpanScaling

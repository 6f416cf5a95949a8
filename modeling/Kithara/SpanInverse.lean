import Kithara.SpanInvariant
import Mathlib.RingTheory.Coprime.Lemmas
import Mathlib.Data.Nat.Prime.Int

/-! Output coordinates of raw source positions, through an inverse map built once.
The inverse skips the reductions of its origin and step; lowest terms are kept by every checked
operation on fractions, so the answers and the refusals are those of the direct construction. -/
namespace SpanInverse

open CheckedArithmetic SpanRatio SpanAffine SpanMapping SpanGeometry SpanInvariant

variable {C : Type} [ExponentialApproach C]

abbrev SourceInverse := Affine

def outputAt (inverse : SourceInverse) (position : ℕ × ℕ+) : Option (ℕ × ℕ+) := do
  let position ← Ratio.new position.1 position.2
  let position ← inverse.apply position
  pure (position.numerator, position.denominator)

def sourceInverse (s : SourceSpan C) (outputOrigin : ℕ) : Option SourceInverse :=
  match s.mapping with
  | .rational m =>
    if m.stepChange = 0 then do
      let step ← nonZero m.step
      let scale ← Ratio.new m.denominator step
      let origin ← Ratio.new outputOrigin nonZeroMin
      let first ← Ratio.new m.numerator step
      let offset ← Offset.difference origin first
      pure ⟨scale, offset⟩
    else none
  | .approach _ => none

def outputRatioAtSource (s : SourceSpan C) (outputOrigin : ℕ) (position : ℕ × ℕ+) :
    Option (ℕ × ℕ+) := do
  let inverse ← sourceInverse s outputOrigin
  outputAt inverse position

/-- The inverse built from the reduced origin and step at each call. -/
def originalOutputRatioAtSource (s : SourceSpan C) (outputOrigin : ℕ) (position : ℕ × ℕ+) :
    Option (ℕ × ℕ+) :=
  match s.mapping with
  | .rational m =>
    if m.stepChange = 0 then do
      let origin ← Ratio.new m.numerator m.denominator
      let step ← Ratio.new m.step m.denominator
      let reciprocal ← nonZero step.numerator
      let output ← Ratio.new outputOrigin nonZeroMin
      let scale ← Ratio.new step.denominator reciprocal
      let inverse ← Affine.new origin output scale
      let position ← Ratio.new position.1 position.2
      let position ← inverse.apply position
      pure (position.numerator, position.denominator)
    else none
  | .approach _ => none

def Lowest (r : Ratio) : Prop := Nat.Coprime r.numerator r.denominator

theorem new_lowest {n : ℕ} {d : ℕ+} {r : Ratio} (h : Ratio.new n d = some r) : Lowest r := by
  obtain ⟨r', hr', hn, hd⟩ := new_eq n d
  obtain rfl : r' = r := Option.some.inj (hr'.symm.trans h)
  unfold Lowest
  rw [hn, hd]
  exact Nat.coprime_div_gcd_div_gcd (Nat.gcd_pos_of_pos_right _ d.pos)

theorem new_of_lowest {r : Ratio} (h : Lowest r) :
    Ratio.new r.numerator r.denominator = some r := by
  obtain ⟨r', hr', hn, hd⟩ := new_eq r.numerator r.denominator
  rw [h.gcd_eq_one, Nat.div_one] at hn hd
  rw [hr']
  exact congrArg some (Ratio.ext hn (PNat.eq hd))

theorem new_of_cross {n : ℕ} {d : ℕ+} {r : Ratio} (h : Lowest r)
    (hcross : n * r.denominator = r.numerator * d) : Ratio.new n d = some r := by
  rw [new_congr hcross]
  exact new_of_lowest h

theorem lowest_unique {r t : Ratio} (hr : Lowest r) (ht : Lowest t) (h : r.toRat = t.toRat) :
    r = t := by
  have hcross := (div_eq_div_iff (pnat_ne_zero _) (pnat_ne_zero _)).mp h
  have hnew : Ratio.new r.numerator r.denominator = some t :=
    new_of_cross ht (by exact_mod_cast hcross)
  exact Option.some.inj ((new_of_lowest hr).symm.trans hnew)

theorem product_eq {r s : Ratio} (hr : Lowest r) (hs : Lowest s) :
    ∃ t, Ratio.new (r.numerator * s.numerator) (r.denominator * s.denominator) = some t ∧
      t.numerator = r.numerator / Nat.gcd r.numerator s.denominator *
        (s.numerator / Nat.gcd s.numerator r.denominator) ∧
      (t.denominator : ℕ) = r.denominator / Nat.gcd s.numerator r.denominator *
        (s.denominator / Nat.gcd r.numerator s.denominator) := by
  obtain ⟨a, ha⟩ := Nat.gcd_dvd_left r.numerator s.denominator
  obtain ⟨e, he⟩ := Nat.gcd_dvd_right r.numerator s.denominator
  obtain ⟨c, hc⟩ := Nat.gcd_dvd_left s.numerator r.denominator
  obtain ⟨b, hb⟩ := Nat.gcd_dvd_right s.numerator r.denominator
  have hg : 0 < Nat.gcd r.numerator s.denominator := Nat.gcd_pos_of_pos_right _ s.denominator.pos
  have hk : 0 < Nat.gcd s.numerator r.denominator := Nat.gcd_pos_of_pos_right _ r.denominator.pos
  have hae : Nat.Coprime a e := by
    have h := Nat.coprime_div_gcd_div_gcd hg
    rwa [Nat.div_eq_of_eq_mul_right hg ha, Nat.div_eq_of_eq_mul_right hg he] at h
  have hcb : Nat.Coprime c b := by
    have h := Nat.coprime_div_gcd_div_gcd hk
    rwa [Nat.div_eq_of_eq_mul_right hk hc, Nat.div_eq_of_eq_mul_right hk hb] at h
  rw [Nat.div_eq_of_eq_mul_right hg ha, Nat.div_eq_of_eq_mul_right hg he,
    Nat.div_eq_of_eq_mul_right hk hc, Nat.div_eq_of_eq_mul_right hk hb]
  generalize Nat.gcd r.numerator s.denominator = g at *
  generalize Nat.gcd s.numerator r.denominator = k at *
  have hab : Nat.Coprime a b :=
    Nat.Coprime.coprime_dvd_left (Dvd.intro_left g ha.symm)
      (Nat.Coprime.coprime_dvd_right (Dvd.intro_left k hb.symm) hr)
  have hce : Nat.Coprime c e :=
    Nat.Coprime.coprime_dvd_left (Dvd.intro_left k hc.symm)
      (Nat.Coprime.coprime_dvd_right (Dvd.intro_left g he.symm) hs)
  have hbe : 0 < b * e := by
    have hb0 := r.denominator.pos
    have he0 := s.denominator.pos
    rw [hb] at hb0
    rw [he] at he0
    exact Nat.mul_pos (Nat.pos_of_mul_pos_left hb0) (Nat.pos_of_mul_pos_left he0)
  have hlowest : Lowest ⟨a * c, (b * e).toPNat hbe⟩ :=
    Nat.Coprime.mul_left (Nat.Coprime.mul_right hab hae) (Nat.Coprime.mul_right hcb hce)
  refine ⟨⟨a * c, (b * e).toPNat hbe⟩, new_of_cross hlowest ?_, rfl, rfl⟩
  calc r.numerator * s.numerator * (b * e) = g * a * (k * c) * (b * e) := by rw [ha, hc]
    _ = a * c * (k * b * (g * e)) := by ring
    _ = a * c * ((r.denominator * s.denominator : ℕ+) : ℕ) := by
      rw [PNat.mul_coe, hb, he]

theorem mul_factors {r s t : Ratio} (h : r.mul s = some t) (hr : r.numerator ≠ r.denominator)
    (hs : s.numerator ≠ s.denominator) :
    t.numerator = r.numerator / Nat.gcd r.numerator s.denominator *
        (s.numerator / Nat.gcd s.numerator r.denominator) ∧
      (t.denominator : ℕ) = r.denominator / Nat.gcd s.numerator r.denominator *
        (s.denominator / Nat.gcd r.numerator s.denominator) := by
  simp only [Ratio.mul, if_neg hr, if_neg hs, Option.bind_eq_bind, Option.bind_eq_some_iff,
    Option.pure_def, Option.some.injEq] at h
  obtain ⟨first, hf, second, hg, numerator, hn, product, hp, denominator, hd, rfl⟩ := h
  simp only [quotient_eq_div, checkedMul_eq_some, nonZero_divisor hf, nonZero_divisor hg] at hn hp
  rw [nonZero_eq_some] at hd
  exact ⟨hn.1.symm, by rw [← hd, hp.1]⟩

theorem mul_lowest {r s t : Ratio} (hr : Lowest r) (hs : Lowest s) (h : r.mul s = some t) :
    Lowest t := by
  by_cases hunit : r.numerator = r.denominator
  · rw [Ratio.mul, if_pos hunit] at h
    exact Option.some.inj h ▸ hs
  · by_cases hunit' : s.numerator = s.denominator
    · rw [Ratio.mul, if_neg hunit, if_pos hunit'] at h
      exact Option.some.inj h ▸ hr
    · obtain ⟨hn, hd⟩ := mul_factors h hunit hunit'
      obtain ⟨p, hp, hpn, hpd⟩ := product_eq hr hs
      have heq : t = p := Ratio.ext (hn.trans hpn.symm) (PNat.eq (hd.trans hpd.symm))
      exact heq ▸ new_lowest hp

theorem mul_of_new {r s t : Ratio} (hr : Lowest r) (hs : Lowest s)
    (h : Ratio.new (r.numerator * s.numerator) (r.denominator * s.denominator) = some t)
    (hn : t.numerator < 2 ^ 128) (hd : (t.denominator : ℕ) < 2 ^ 128) : r.mul s = some t := by
  have hvalue : t.toRat = r.toRat * s.toRat := by
    rw [new_toRat h, Ratio.toRat, Ratio.toRat, PNat.mul_coe, Nat.cast_mul, Nat.cast_mul,
      div_mul_div_comm]
  by_cases hunit : r.numerator = r.denominator
  · rw [Ratio.mul, if_pos hunit]
    refine congrArg some (lowest_unique hs (new_lowest h) ?_)
    rw [hvalue, Ratio.toRat.eq_def r, hunit, div_self (pnat_ne_zero _), one_mul]
  · by_cases hunit' : s.numerator = s.denominator
    · rw [Ratio.mul, if_neg hunit, if_pos hunit']
      refine congrArg some (lowest_unique hr (new_lowest h) ?_)
      rw [hvalue, Ratio.toRat.eq_def s, hunit', div_self (pnat_ne_zero _), mul_one]
    · obtain ⟨p, hp, hpn, hpd⟩ := product_eq hr hs
      obtain rfl : p = t := Option.some.inj (hp.symm.trans h)
      obtain ⟨first, hf⟩ : ∃ g, nonZero (divisor r.numerator s.denominator) = some g := by
        rw [divisor_eq_gcd]
        exact ⟨_, nonZero_pos (Nat.gcd_pos_of_pos_right _ s.denominator.pos)⟩
      obtain ⟨second, hg⟩ : ∃ g, nonZero (divisor s.numerator r.denominator) = some g := by
        rw [divisor_eq_gcd]
        exact ⟨_, nonZero_pos (Nat.gcd_pos_of_pos_right _ r.denominator.pos)⟩
      simp only [Ratio.mul, if_neg hunit, if_neg hunit', Option.bind_eq_bind,
        Option.bind_eq_some_iff, Option.pure_def, Option.some.injEq]
      refine ⟨first, hf, second, hg, p.numerator, ?_, p.denominator, ?_, p.denominator, ?_, rfl⟩
      · simp only [quotient_eq_div, checkedMul_eq_some, nonZero_divisor hf, nonZero_divisor hg]
        exact ⟨hpn.symm, hn⟩
      · simp only [quotient_eq_div, checkedMul_eq_some, nonZero_divisor hf, nonZero_divisor hg]
        exact ⟨hpd.symm, hd⟩
      · exact nonZero_eq_some.mpr rfl

/-- A signed sum of two numerators over their common denominator shares with it only factors of
what the denominators share, so dividing by those leaves lowest terms. -/
theorem combine_lowest {op : ℕ → ℕ → Option ℕ}
    (hop : ∀ x y z, op x y = some z → ∃ sign : ℤ, IsUnit sign ∧ (z : ℤ) = x + sign * y)
    {r s t : Ratio} (hr : Lowest r) (hs : Lowest s) (h : r.combine s op = some t) : Lowest t := by
  simp only [Ratio.combine, Option.bind_eq_bind, Option.bind_eq_some_iff] at h
  obtain ⟨shared, hshared, left, hleft, right, hright, combined, hcombined, h⟩ := h
  have hg := nonZero_divisor hshared
  rw [quotient_eq_div, checkedMul_eq_some] at hleft hright
  split at h
  · exact new_lowest h
  · next hz =>
    simp only [Option.bind_eq_some_iff, Option.pure_def, Option.some.injEq] at h
    obtain ⟨reduction, hreduction, product, hproduct, denominator, hdenominator, rfl⟩ := h
    have hk := nonZero_divisor hreduction
    rw [quotient_eq_div, quotient_eq_div, checkedMul_eq_some] at hproduct
    rw [nonZero_eq_some] at hdenominator
    obtain ⟨b, hb⟩ : (shared : ℕ) ∣ r.denominator := hg ▸ Nat.gcd_dvd_left _ _
    obtain ⟨d, hd⟩ : (shared : ℕ) ∣ s.denominator := hg ▸ Nat.gcd_dvd_right _ _
    obtain ⟨n, hn⟩ : (reduction : ℕ) ∣ combined := hk ▸ Nat.gcd_dvd_left _ _
    obtain ⟨e, he⟩ : (reduction : ℕ) ∣ shared := hk ▸ Nat.gcd_dvd_right _ _
    have hbd : Nat.Coprime b d := by
      have hgcd := Nat.coprime_div_gcd_div_gcd (hg ▸ shared.pos : 0 < Nat.gcd r.denominator
        s.denominator)
      rwa [← hg, Nat.div_eq_of_eq_mul_right shared.pos hb,
        Nat.div_eq_of_eq_mul_right shared.pos hd] at hgcd
    have hne : Nat.Coprime n e := by
      have hgcd := Nat.coprime_div_gcd_div_gcd (hk ▸ reduction.pos : 0 < Nat.gcd combined shared)
      rwa [← hk, Nat.div_eq_of_eq_mul_right reduction.pos hn,
        Nat.div_eq_of_eq_mul_right reduction.pos he] at hgcd
    rw [Nat.div_eq_of_eq_mul_right shared.pos hd] at hleft
    rw [Nat.div_eq_of_eq_mul_right shared.pos hb] at hright
    obtain ⟨sign, hsign, hsum⟩ := hop _ _ _ hcombined
    have hcb : IsCoprime (combined : ℤ) b := by
      have hrb : Nat.Coprime left b := by
        rw [← hleft.1]
        exact Nat.Coprime.mul_left
          (Nat.Coprime.coprime_dvd_right (Dvd.intro_left _ hb.symm) hr) hbd.symm
      have hadd : (combined : ℤ) = left + b * (sign * s.numerator) := by
        rw [hsum, ← hright.1]
        push_cast
        ring
      rw [hadd]
      exact (Nat.isCoprime_iff_coprime.mpr hrb).add_mul_left_left _
    have hcd : IsCoprime (combined : ℤ) d := by
      have hsd : Nat.Coprime right d := by
        rw [← hright.1]
        exact Nat.Coprime.mul_left
          (Nat.Coprime.coprime_dvd_right (Dvd.intro_left _ hd.symm) hs) hbd
      have hadd : (combined : ℤ) = sign * right + d * r.numerator := by
        rw [hsum, ← hleft.1]
        push_cast
        ring
      rw [hadd]
      refine IsCoprime.add_mul_left_left ?_ _
      exact (isCoprime_mul_unit_left_left hsign _ _).mpr (Nat.isCoprime_iff_coprime.mpr hsd)
    have hnb : Nat.Coprime n b :=
      Nat.Coprime.coprime_dvd_left (Dvd.intro_left _ hn.symm) (Nat.isCoprime_iff_coprime.mp hcb)
    have hnd : Nat.Coprime n d :=
      Nat.Coprime.coprime_dvd_left (Dvd.intro_left _ hn.symm) (Nat.isCoprime_iff_coprime.mp hcd)
    have hrest : (s.denominator : ℕ) = reduction * (e * d) := by
      rw [hd, he, Nat.mul_assoc]
    unfold Lowest
    rw [← hdenominator, ← hproduct.1, quotient_eq_div,
      Nat.div_eq_of_eq_mul_right reduction.pos hn, Nat.div_eq_of_eq_mul_right shared.pos hb,
      Nat.div_eq_of_eq_mul_right reduction.pos hrest]
    exact Nat.Coprime.mul_right hnb (Nat.Coprime.mul_right hne hnd)

theorem add_lowest {r s t : Ratio} (hr : Lowest r) (hs : Lowest s) (h : r.add s = some t) :
    Lowest t := by
  unfold Ratio.add at h
  split at h
  · exact Option.some.inj h ▸ hr
  · split at h
    · exact Option.some.inj h ▸ hs
    · refine combine_lowest ?_ hr hs h
      intro x y z hz
      refine ⟨1, isUnit_one, ?_⟩
      rw [← (checkedAdd_eq_some.mp hz).1, Nat.cast_add, one_mul]

theorem sub_lowest {r s t : Ratio} (hr : Lowest r) (hs : Lowest s) (h : r.sub s = some t) :
    Lowest t := by
  unfold Ratio.sub at h
  split at h
  · exact Option.some.inj h ▸ hr
  · refine combine_lowest ?_ hr hs h
    intro x y z hz
    refine ⟨-1, isUnit_one.neg, ?_⟩
    rw [← checkedSub_eq_some.mp hz, Nat.cast_add]
    ring

/-- The fraction an offset moves by. -/
def shift : Offset → Ratio
  | .add value => value
  | .subtract value => value

theorem difference_lowest {first second : Ratio} {o : Offset}
    (h : Offset.difference first second = some o) : Lowest (shift o) := by
  simp only [Offset.difference, Option.bind_eq_bind, Option.bind_eq_some_iff] at h
  obtain ⟨d, _, left, _, right, _, h⟩ := h
  split at h
  · simp only [Option.bind_eq_some_iff, Option.pure_def, Option.some.injEq] at h
    obtain ⟨r, hr, rfl⟩ := h
    exact new_lowest hr
  · simp only [Option.bind_eq_some_iff, Option.pure_def, Option.some.injEq] at h
    obtain ⟨r, hr, rfl⟩ := h
    exact new_lowest hr

theorem apply_lowest {a : Affine} {r t : Ratio} (hscale : Lowest a.scale)
    (hoffset : Lowest (shift a.offset)) (hr : Lowest r) (h : a.apply r = some t) : Lowest t := by
  simp only [Affine.apply, Option.bind_eq_bind, Option.bind_eq_some_iff] at h
  obtain ⟨product, hp, h⟩ := h
  have hproduct := mul_lowest hr hscale hp
  cases ho : a.offset with
  | add value =>
    rw [ho] at h hoffset
    exact add_lowest hproduct hoffset h
  | subtract value =>
    rw [ho] at h hoffset
    exact sub_lowest hproduct hoffset h

/-- The reduced origin times the reciprocal of the reduced step is the unreduced quotient. -/
theorem origin_mul_reciprocal {m : Rational} (hm : m.Wide) {origin step first scale : Ratio}
    {advance reciprocal : ℕ+} (ho : Ratio.new m.numerator m.denominator = some origin)
    (hs : Ratio.new m.step m.denominator = some step) (hadvance : nonZero m.step = some advance)
    (hreciprocal : nonZero step.numerator = some reciprocal)
    (hscale : Ratio.new step.denominator reciprocal = some scale)
    (hfirst : Ratio.new m.numerator advance = some first) :
    origin.mul scale = some first ∧ Ratio.new m.denominator advance = some scale := by
  rw [nonZero_eq_some] at hadvance hreciprocal
  have hsv := new_toRat hs
  have hov := new_toRat ho
  have hcv := new_toRat hscale
  have hinverse : Ratio.new m.denominator advance = some scale := by
    rw [← hscale]
    refine new_congr ?_
    have hcross := (div_eq_div_iff (pnat_ne_zero _) (pnat_ne_zero _)).mp hsv
    rw [hadvance, hreciprocal] at hcross
    rw [Nat.mul_comm, Nat.mul_comm (step.denominator : ℕ)]
    exact_mod_cast hcross
  refine ⟨?_, hinverse⟩
  obtain ⟨first', hf, hfn, hfd⟩ := new_eq m.numerator advance
  obtain rfl : first' = first := Option.some.inj (hf.symm.trans hfirst)
  have hiv := new_toRat hinverse
  refine mul_of_new (new_lowest ho) (new_lowest hscale) ?_ ?_ ?_
  · refine new_of_cross (new_lowest hfirst) ?_
    have hvalue : origin.toRat * scale.toRat = first'.toRat := by
      rw [hov, hiv, new_toRat hfirst, div_mul_div_cancel₀ (pnat_ne_zero _)]
    rw [Ratio.toRat, Ratio.toRat, Ratio.toRat, div_mul_div_comm,
      div_eq_div_iff (mul_ne_zero (pnat_ne_zero _) (pnat_ne_zero _)) (pnat_ne_zero _)] at hvalue
    rw [PNat.mul_coe]
    exact_mod_cast hvalue
  · rw [hfn]
    exact lt_of_le_of_lt (Nat.div_le_self _ _) hm.numerator
  · rw [hfd]
    exact lt_of_le_of_lt (Nat.div_le_self _ _) (hadvance ▸ hm.step)

theorem new_step_zero {m : Rational} {step : Ratio}
    (hs : Ratio.new m.step m.denominator = some step) : step.numerator = 0 ↔ m.step = 0 := by
  have hsv := new_toRat hs
  rw [Ratio.toRat, div_eq_div_iff (pnat_ne_zero _) (pnat_ne_zero _)] at hsv
  have hcross : step.numerator * m.denominator = m.step * step.denominator := by exact_mod_cast hsv
  constructor
  · intro hzero
    rw [hzero, Nat.zero_mul] at hcross
    exact (Nat.mul_eq_zero.mp hcross.symm).resolve_right step.denominator.ne_zero
  · intro hzero
    rw [hzero, Nat.zero_mul] at hcross
    exact (Nat.mul_eq_zero.mp hcross).resolve_right m.denominator.ne_zero

omit [ExponentialApproach C] in
/-- Building the inverse once and skipping its reductions changes no answer and no refusal. -/
theorem output_eq_original {s : SourceSpan C} {m : Rational} (hm : s.mapping = .rational m)
    (hwide : m.Wide) (outputOrigin : ℕ) (position : ℕ × ℕ+) :
    outputRatioAtSource s outputOrigin position =
      originalOutputRatioAtSource s outputOrigin position := by
  simp only [outputRatioAtSource, sourceInverse, originalOutputRatioAtSource, hm]
  by_cases hchange : m.stepChange = 0
  · rw [if_pos hchange, if_pos hchange]
    obtain ⟨origin, ho⟩ := new_isSome m.numerator m.denominator
    obtain ⟨step, hs⟩ := new_isSome m.step m.denominator
    obtain ⟨output, hout⟩ := new_isSome outputOrigin nonZeroMin
    rw [ho, hs, hout]
    by_cases hzero : m.step = 0
    · have hnone : nonZero m.step = none := by
        rw [hzero]
        rfl
      have hnone' : nonZero step.numerator = none := by
        rw [(new_step_zero hs).mpr hzero]
        rfl
      simp only [hnone, hnone', Option.bind_eq_bind, Option.bind_some, Option.bind_none]
    · have hadvance := nonZero_pos (Nat.pos_of_ne_zero hzero)
      have hreciprocal := nonZero_pos (Nat.pos_of_ne_zero (mt (new_step_zero hs).mp hzero))
      obtain ⟨scale, hscale⟩ := new_isSome step.denominator (step.numerator.toPNat
        (Nat.pos_of_ne_zero (mt (new_step_zero hs).mp hzero)))
      obtain ⟨first, hfirst⟩ := new_isSome m.numerator (m.step.toPNat (Nat.pos_of_ne_zero hzero))
      obtain ⟨hmul, hinverse⟩ :=
        origin_mul_reciprocal hwide ho hs hadvance hreciprocal hscale hfirst
      have hpositive : scale.numerator ≠ 0 := by
        intro h
        have hv := new_toRat hinverse
        rw [Ratio.toRat, h, Nat.cast_zero, zero_div, eq_comm, div_eq_zero_iff] at hv
        exact hv.elim (pnat_ne_zero _) (pnat_ne_zero _)
      simp only [hadvance, hreciprocal, hscale, hfirst, hinverse, hmul, Affine.new,
        if_neg hpositive, Option.bind_eq_bind, Option.bind_some, Option.bind_assoc,
        Option.pure_def, outputAt]
  · rw [if_neg hchange, if_neg hchange]
    rfl

omit [ExponentialApproach C] in
theorem sourceInverse_eq_some {s : SourceSpan C} {m : Rational} (hm : s.mapping = .rational m)
    {outputOrigin : ℕ} {a : SourceInverse} (h : sourceInverse s outputOrigin = some a) :
    0 < m.step ∧ Lowest a.scale ∧ Lowest (shift a.offset) ∧
      ∀ x, a.eval x = (m.denominator : ℕ) / m.step * x + (outputOrigin - m.numerator / m.step) := by
  simp only [sourceInverse, hm] at h
  split at h
  · simp only [Option.bind_eq_bind, Option.bind_eq_some_iff, Option.pure_def,
      Option.some.injEq] at h
    obtain ⟨step, hstep, scale, hscale, origin, horigin, first, hfirst, offset, hoffset, rfl⟩ := h
    rw [nonZero_eq_some] at hstep
    refine ⟨hstep ▸ step.pos, new_lowest hscale, difference_lowest hoffset, ?_⟩
    intro x
    rw [Affine.eval, difference_toRat hoffset, new_toRat hscale, new_toRat horigin,
      new_toRat hfirst, ← hstep, PNat.one_coe, Nat.cast_one, div_one]
  · contradiction

theorem affine_position {s : SourceSpan C} {m : Rational} (hm : s.mapping = .rational m)
    (hchange : m.stepChange = 0) {k : ℕ} {r : Ratio} (h : s.sourceRatioAt k = some r) :
    r.toRat = (m.numerator + k * m.step) / (m.denominator : ℕ) := by
  rw [sourceRatioAt_inside (sourceRatioAt_within h), hm] at h
  simp only [Mapping.ratioAt, Option.bind_eq_bind, Option.bind_eq_some_iff] at h
  obtain ⟨n, hn, hr⟩ := h
  obtain ⟨_, _, _, _, _, hv, _⟩ := numeratorAt_eq_some.mp hn
  have hvalue : n = m.numerator + k * m.step := by
    have hlinear : m.progression.value k =
        m.numerator + k * m.step + (k.choose 2 : ℕ) * m.stepChange := rfl
    rw [hlinear, hchange, mul_zero, add_zero] at hv
    exact_mod_cast hv
  rw [new_toRat hr, hvalue]
  push_cast
  rfl

theorem output_on_image {s : SourceSpan C} {m : Rational} (hm : s.mapping = .rational m)
    (hchange : m.stepChange = 0) {outputOrigin k : ℕ} {r : Ratio} {t : ℕ × ℕ+}
    (hr : s.sourceRatioAt k = some r)
    (h : outputRatioAtSource s outputOrigin (r.numerator, r.denominator) = some t) :
    t = (outputOrigin + k, nonZeroMin) := by
  simp only [outputRatioAtSource, outputAt, Option.bind_eq_bind, Option.bind_eq_some_iff,
    Option.pure_def, Option.some.injEq] at h
  obtain ⟨a, ha, position, hposition, output, houtput, rfl⟩ := h
  obtain ⟨hstep, hscale, hoffset, heval⟩ := sourceInverse_eq_some hm ha
  have hlowest := apply_lowest hscale hoffset (new_lowest hposition) houtput
  have hvalue : output.toRat = (outputOrigin + k : ℕ) := by
    have hd := pnat_ne_zero m.denominator
    have hs : (m.step : ℚ) ≠ 0 := Nat.cast_ne_zero.mpr hstep.ne'
    rw [apply_toRat houtput, heval, new_toRat hposition, ← Ratio.toRat,
      affine_position hm hchange hr]
    push_cast
    field_simp
    ring
  have hwhole : Lowest ⟨outputOrigin + k, nonZeroMin⟩ := Nat.coprime_one_right _
  have heq : output = ⟨outputOrigin + k, nonZeroMin⟩ := by
    refine lowest_unique hlowest hwhole ?_
    rw [hvalue, Ratio.toRat, PNat.one_coe, Nat.cast_one, div_one]
  rw [heq]

/-- On every affine span the prepared inverse answers and refuses as the direct construction
does, and takes a position read from the span back to its output frame. -/
theorem inverse_exact (s : SourceSpan C) (m : Rational) (hm : s.mapping = .rational m)
    (hchange : m.stepChange = 0) (hwide : m.Wide) (outputOrigin : ℕ) :
    (∀ position, outputRatioAtSource s outputOrigin position =
      originalOutputRatioAtSource s outputOrigin position) ∧
    (∀ k r t, s.sourceRatioAt k = some r →
      outputRatioAtSource s outputOrigin (r.numerator, r.denominator) = some t →
      t = (outputOrigin + k, nonZeroMin)) :=
  ⟨output_eq_original hm hwide outputOrigin, fun _ _ _ hr h => output_on_image hm hchange hr h⟩

def steady : Rational := ⟨3, ⟨2, Nat.two_pos⟩, 5, 0⟩

def steadySpan : SourceSpan SteadyRate := ⟨slowingSpan.sampleRate, none, .rational steady, 4, 0⟩

theorem inverse_exact_steady :
    outputRatioAtSource steadySpan 7 (9, 4) = originalOutputRatioAtSource steadySpan 7 (9, 4) := by
  have hwide : steady.Wide := by constructor <;> decide
  exact (inverse_exact steadySpan steady rfl rfl hwide 7).1 (9, 4)

end SpanInverse

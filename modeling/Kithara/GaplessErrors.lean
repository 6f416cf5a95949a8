import Kithara.GaplessTrimmer
import Kithara.RatioLaws

/-! Which errors of the trimmer leave it as it was. A refused geometry does; a leading cut that has
no source frame is refused only after the leading count is spent; a refused flush has dropped
nothing that was to be emitted. -/
namespace GaplessErrors

open CheckedArithmetic SpanRatio SpanAffine SpanMapping SpanGeometry SpanInvariant SpanInverse
open RatioLaws SpanCuts GaplessChunks GaplessChunks.AudioChunk GaplessFade HeldBlocks GaplessTrimmer

variable {S C : Type} [ExponentialApproach C]

/-- Not a mapped chunk whose leading cut has no source frame. -/
def SafeCut (t : Trimmer S C) (chunk : AudioChunk S C) : Prop :=
  ∀ leading fade, t.mode = .fixed leading fade → Fitting chunk → 0 < leading →
    leading < chunk.chunkFrames → CutReadable chunk leading

theorem flush_held {t : Trimmer S C} (ht : Held t.tailBuffer) : Held t.flush.2.tailBuffer := by
  rw [Trimmer.flush]
  split
  · exact ht
  · split
    · next e left htrim => exact trim_held ht htrim
    · exact held_empty

theorem flush_keeps {t t' : Trimmer S C} {e : SeekGeometry.DecodeError} (ht : Held t.tailBuffer)
    (hflush : t.flush = (.error e, t')) :
    (spelled audio t.tailBuffer.chunks).take
        (t.tailBuffer.frames - t.compensatedTrailingFrames) <+:
      spelled audio t'.tailBuffer.chunks ∧
    spelled audio t'.tailBuffer.chunks <+: spelled audio t.tailBuffer.chunks := by
  rw [Trimmer.flush] at hflush
  split at hflush
  · cases hflush
  · split at hflush
    · next error left htrim =>
      obtain ⟨_, rfl⟩ := Prod.mk.inj hflush
      exact (trim_audio ht htrim).2
    · cases hflush

/-- A span of whole fractions, the only kind the decoders attach, has a source frame at every
cut. -/
theorem rational_safeCut {t : Trimmer S C} {chunk : AudioChunk S C} (hres : Resident chunk)
    (hrational : ∀ s, chunk.sourceSpan = some s → ∃ m, s.mapping = .rational m) :
    SafeCut t chunk := by
  intro leading fade _ hfits _ hwithin s hspan
  obtain ⟨m, hm⟩ := hrational s hspan
  refine rational_reads (reachable_validated (hres.attached s hspan).reachable) hm ?_
  rw [(hfits s hspan).1]
  exact hwithin.le

variable [RaisedCosine S]

/-- Trimmers built and driven by the public operations, refused ones included. -/
inductive Reachable : Trimmer S C → Prop where
  | disabled : Reachable .disabled
  | ofInfo (info : GaplessInfo) : Reachable (.ofInfo info)
  | codecPriming (leadingFrames sampleRate : ℕ) : Reachable (.codecPriming leadingFrames sampleRate)
  | withTailCompensation {t} (ht : Reachable t) (compensation : Option GaplessTailCompensation) :
      Reachable (t.withTailCompensation compensation)
  | push {t chunk} (ht : Reachable t) (hres : Resident chunk) (hroom : Room t chunk) :
      Reachable (t.push chunk).2
  | flush {t} (ht : Reachable t) : Reachable t.flush.2
  | notifySeek {t} (ht : Reachable t) : Reachable t.notifySeek

theorem hold_held {t : Trimmer S C} {leading : ℕ} {fade : Option FadeInState}
    {chunk : AudioChunk S C} (ht : Held t.tailBuffer) (hres : Resident chunk)
    (hfits : Fitting chunk) (hsome : 0 < chunk.chunkFrames) (hroom : Room t chunk) :
    Held (t.hold leading fade chunk).2.tailBuffer := by
  have hsame := applyFadeIn_same fade chunk
  have hframes := hsame.chunkFrames
  exact held_release (held_push ht (hsame.resident hres) (hsame.fitting hfits) (by omega)
    (by rw [hframes]; exact hroom)) _

theorem push_held {t : Trimmer S C} {chunk : AudioChunk S C} (ht : Held t.tailBuffer)
    (hres : Resident chunk) (hroom : Room t chunk) : Held (t.push chunk).2.tailBuffer := by
  by_cases hfits : Fitting chunk
  · cases hmode : t.mode with
    | disabled =>
      rw [push_disabled hfits hmode]
      exact ht
    | fixed leading fade =>
      by_cases heaten : chunk.chunkFrames ≤ leading
      · rw [push_eaten hfits hmode heaten]
        exact ht
      · rcases Nat.eq_zero_or_pos leading with hzero | hpos
        · rw [push_past hfits hmode hzero (by omega)]
          exact hold_held ht hres hfits (by omega) hroom
        · obtain ⟨hcut, hrefused⟩ := push_cut hfits hmode hres hpos (by omega)
          by_cases hreads : CutReadable chunk leading
          · obtain ⟨e, he, hpush⟩ := hcut hreads
            rw [hpush]
            refine hold_held ht he.resident he.fitting ?_ ?_
            · rw [he.frames]
              omega
            · rw [Room, he.frames]
              have hsum : total chunkFrames t.tailBuffer.chunks + chunk.chunkFrames < 2 ^ 64 :=
                hroom
              show total chunkFrames t.tailBuffer.chunks + _ < _
              omega
          · obtain ⟨error, hpush⟩ := hrefused hreads
            rw [hpush]
            exact ht
  · obtain ⟨error, hpush⟩ := push_unfit (t := t) hfits
    rw [hpush]
    exact ht

theorem reachable_held {t : Trimmer S C} (ht : Reachable t) : Held t.tailBuffer := by
  induction ht with
  | disabled => exact held_empty
  | ofInfo info => exact held_empty
  | codecPriming leadingFrames sampleRate =>
    rw [Trimmer.codecPriming]
    split
    · exact held_empty
    · exact held_empty
  | withTailCompensation _ _ ih => exact ih
  | push _ hres hroom ih => exact push_held ih hres hroom
  | flush _ ih => exact flush_held ih
  | notifySeek _ _ => exact held_empty

/-- A refused push leaves the trimmer alone exactly when it was not a refused leading cut. -/
theorem push_atomic_iff {t : Trimmer S C} {chunk : AudioChunk S C} (hres : Resident chunk) :
    (∀ e t', t.push chunk = (.error e, t') → t' = t) ↔ SafeCut t chunk := by
  constructor
  · intro hatomic leading fade hmode hfits hpos hwithin
    by_contra hreads
    obtain ⟨error, hpush⟩ := (push_cut hfits hmode hres hpos hwithin).2 hreads
    have hspent := congrArg Trimmer.mode (hatomic _ _ hpush)
    rw [hmode] at hspent
    have hzero : 0 = leading := (GaplessMode.fixed.inj hspent).1
    omega
  · intro hsafe e t' hpush
    by_cases hfits : Fitting chunk
    · cases hmode : t.mode with
      | disabled =>
        rw [push_disabled hfits hmode] at hpush
        cases hpush
      | fixed leading fade =>
        by_cases heaten : chunk.chunkFrames ≤ leading
        · rw [push_eaten hfits hmode heaten] at hpush
          cases hpush
        · rcases Nat.eq_zero_or_pos leading with hzero | hpos
          · rw [push_past hfits hmode hzero (by omega)] at hpush
            cases hpush
          · have hreads := hsafe leading fade hmode hfits hpos (by omega)
            obtain ⟨_, _, hok⟩ := (push_cut hfits hmode hres hpos (by omega)).1 hreads
            rw [hok] at hpush
            cases hpush
    · obtain ⟨error, hrefused⟩ := push_unfit (t := t) hfits
      rw [hrefused] at hpush
      exact (Prod.mk.inj hpush).2.symm

/-- In every reachable state the tail is counted right, a refused flush has lost nothing, and a
refused push is atomic exactly where the leading cut, if any, has a source frame. -/
theorem errors_atomic_iff (t : Trimmer S C) (ht : Reachable t) :
    t.tailBuffer.frames = total chunkFrames t.tailBuffer.chunks ∧
    (∀ e t', t.flush = (.error e, t') →
      (spelled audio t.tailBuffer.chunks).take
          (t.tailBuffer.frames - t.compensatedTrailingFrames) <+:
        spelled audio t'.tailBuffer.chunks) ∧
    ∀ chunk, Resident chunk →
      ((∀ e t', t.push chunk = (.error e, t') → t' = t) ↔ SafeCut t chunk) ∧
      ((∀ s, chunk.sourceSpan = some s → ∃ m, s.mapping = .rational m) → SafeCut t chunk) := by
  have hheld := reachable_held ht
  refine ⟨hheld.count, fun e t' hflush => (flush_keeps hheld hflush).1, fun chunk hres => ?_⟩
  exact ⟨push_atomic_iff hres, rational_safeCut hres⟩

theorem whole_nearestQ32 {n : ℕ} (hn : n * 2 ^ 32 < 2 ^ 128) :
    (⟨n, 1⟩ : Ratio).nearestQ32 = some ⟨n, 1⟩ := by
  have hq : q32 ⟨n, 1⟩ = n * 2 ^ 32 := by
    have h := RoundedQuotients.rounded_whole (n * 2 ^ 32) Nat.one_pos
    rwa [Nat.one_mul] at h
  rw [nearestQ32_eq, hq, if_pos hn]
  refine new_of_cross (Nat.coprime_one_right n) ?_
  rw [PNat.pow_coe]
  exact Nat.mul_one _

theorem steady_advance (a : Approach SteadyRate) {e : ℕ} (he : e * 2 ^ 32 < 2 ^ 128) :
    a.advanceAt e = some ⟨e, 1⟩ := by
  have hnew : Ratio.new e nonZeroMin = some ⟨e, 1⟩ :=
    new_of_lowest (r := ⟨e, 1⟩) (Nat.coprime_one_right e)
  have hmul : (⟨1, nonZeroMin⟩ : Ratio).mul ⟨e, 1⟩ = some ⟨e, 1⟩ := if_pos rfl
  have hadd : (⟨e, 1⟩ : Ratio).add ⟨0, nonZeroMin⟩ = some ⟨e, 1⟩ := if_pos rfl
  simp only [Approach.advanceAt, Option.bind_eq_bind, Option.bind_eq_some_iff]
  refine ⟨_, rfl, _, hnew, _, hmul, _, rfl, ?_⟩
  rw [if_neg Bool.false_ne_true]
  exact Option.bind_eq_some_iff.mpr ⟨_, hadd, whole_nearestQ32 he⟩

theorem steady_ratioAt {origin sum : Ratio} {affine : Affine} {k : ℕ} (hk : k < 2 ^ 64)
    (hsum : origin.add ⟨k, 1⟩ = some sum) :
    (⟨.unit, 0, origin, affine⟩ : Approach SteadyRate).ratioAt k = affine.apply sum := by
  have helapsed : checkedAdd 64 0 k = some k := checkedAdd_eq_some.mpr ⟨Nat.zero_add k, hk⟩
  rw [Approach.ratioAt, helapsed, Option.bind_eq_bind, Option.bind_some,
    steady_advance _ (by omega), Option.bind_eq_bind, Option.bind_some, hsum, Option.bind_some]

def fine : ℕ+ := ⟨2 ^ 120, by decide⟩

abbrev sampleRate : ℕ+ := ⟨48000, by decide⟩

/-- The positions before scaling, and what the scale makes of those it can. -/
def unscaled (k : ℕ) : Ratio := ⟨187 + k * 2 ^ 120, fine⟩

def first : Ratio := ⟨11, 19 * fine⟩

def last : Ratio := ⟨139918736398412197147769164240036281, 17 * fine⟩

def scaling : Affine := ⟨⟨1, 323⟩, .add ⟨0, nonZeroMin⟩⟩

def crossing : SourceSpan SteadyRate :=
  ⟨sampleRate, none, .approach ⟨.unit, 0, unscaled 0, scaling⟩, 2, 0⟩

theorem unscaled_add {k : ℕ} (hk : k = 1 ∨ k = 2) :
    (unscaled 0).add ⟨k, 1⟩ = some (unscaled k) := by
  simp only [Ratio.add, Ratio.combine, divisor_eq_gcd, quotient_eq_div]
  rcases hk with rfl | rfl
  · rfl
  · rfl

theorem scaling_first : scaling.apply (unscaled 0) = some first := by
  simp only [Affine.apply, Ratio.mul, divisor_eq_gcd, quotient_eq_div]
  rfl

theorem scaling_between : scaling.apply (unscaled 1) = none := by
  simp only [Affine.apply, Ratio.mul, divisor_eq_gcd, quotient_eq_div]
  rfl

theorem scaling_last : scaling.apply (unscaled 2) = some last := by
  simp only [Affine.apply, Ratio.mul, divisor_eq_gcd, quotient_eq_div]
  rfl

theorem crossing_ratioAt :
    crossing.mapping.ratioAt 0 = some first ∧ crossing.mapping.ratioAt 1 = none ∧
      crossing.mapping.ratioAt 2 = some last := by
  refine ⟨?_, ?_, ?_⟩
  · exact (steady_ratioAt (by decide) (if_pos rfl)).trans scaling_first
  · exact (steady_ratioAt (by decide) (unscaled_add (.inl rfl))).trans scaling_between
  · exact (steady_ratioAt (by decide) (unscaled_add (.inr rfl))).trans scaling_last

theorem crossing_unread : ¬ Reads crossing 1 := by
  rintro ⟨r, hr, _⟩
  rw [sourceRatioAt_inside (by decide), crossing_ratioAt.2.1] at hr
  cases hr

theorem crossing_validates : crossing.mapping.validate 2 = some () := by
  obtain ⟨hfirst, _, hlast⟩ := crossing_ratioAt
  have hstart : first.sourceFrame = some 0 := sourceFrame_eq_some.mpr ⟨by decide, by decide⟩
  have hend : last.sourceFrame = some 0 := sourceFrame_eq_some.mpr ⟨by decide, by decide⟩
  simp only [Mapping.validate, hfirst, hlast, Option.bind_eq_bind, Option.bind_eq_some_iff]
  exact ⟨(), rfl, _, rfl, _, hstart, _, rfl, _, hend, rfl⟩

def unmoved : Affine := ⟨⟨1, nonZeroMin⟩, .add ⟨0, nonZeroMin⟩⟩

def unscaledSpan : SourceSpan SteadyRate :=
  ⟨sampleRate, none, .approach ⟨.unit, 0, unscaled 0, unmoved⟩, 2, 0⟩

theorem unscaledSpan_reachable : SpanGeometry.Reachable unscaledSpan := by
  have hnew : Ratio.new 187 fine = some (unscaled 0) :=
    new_of_lowest (r := unscaled 0) (by unfold Lowest; decide)
  have hidentity : Affine.identity = some unmoved := by
    rw [Affine.identity, show Ratio.new 1 nonZeroMin = some ⟨1, 1⟩ from
      new_of_lowest (r := ⟨1, 1⟩) (Nat.coprime_one_right 1), show Ratio.new 0 nonZeroMin =
      some ⟨0, 1⟩ from new_of_lowest (r := ⟨0, 1⟩) (Nat.coprime_one_right 0)]
    rfl
  have hfirst : unscaledSpan.mapping.ratioAt 0 = some (unscaled 0) :=
    (steady_ratioAt (by decide) (if_pos rfl)).trans rfl
  have hlast : unscaledSpan.mapping.ratioAt 2 = some (unscaled 2) :=
    (steady_ratioAt (by decide) (unscaled_add (.inr rfl))).trans rfl
  have hstart : (unscaled 0).sourceFrame = some 0 := sourceFrame_eq_some.mpr ⟨by decide, by decide⟩
  have hend : (unscaled 2).sourceFrame = some 2 := sourceFrame_eq_some.mpr ⟨by decide, by decide⟩
  have hvalid : unscaledSpan.mapping.validate 2 = some () := by
    simp only [Mapping.validate, hfirst, hlast, Option.bind_eq_bind, Option.bind_eq_some_iff]
    exact ⟨(), rfl, _, rfl, _, hstart, _, rfl, _, hend, rfl⟩
  have hbuilt : SourceSpan.approaching 187 fine SteadyRate.unit 0 48000 2 = some unscaledSpan := by
    rw [SourceSpan.approaching, if_neg (by decide)]
    simp only [Option.bind_eq_bind, Option.bind_eq_some_iff]
    exact ⟨_, hnew, _, hidentity, (), hvalid, rfl⟩
  exact .approaching (by decide) hbuilt

theorem crossing_reachable : SpanGeometry.Reachable crossing := by
  have hzero : Ratio.new 0 1 = some ⟨0, 1⟩ :=
    new_of_lowest (r := ⟨0, 1⟩) (Nat.coprime_one_right 0)
  have hscale : Ratio.new 1 323 = some ⟨1, 323⟩ :=
    new_of_lowest (r := ⟨1, 323⟩) (Nat.coprime_one_left 323)
  have hproduct : (⟨0, 1⟩ : Ratio).mul ⟨1, 323⟩ = some ⟨0, 1⟩ := by
    simp only [Ratio.mul, divisor_eq_gcd, quotient_eq_div]
    rfl
  have hdifference : Offset.difference ⟨0, 1⟩ ⟨0, 1⟩ = some (.add ⟨0, 1⟩) := by
    simp only [Offset.difference, Ratio.common, Ratio.atDenominator, Ratio.new, divisor_eq_gcd,
      quotient_eq_div]
    rfl
  have haffine : Affine.new ⟨0, 1⟩ ⟨0, 1⟩ ⟨1, 323⟩ = some scaling := by
    rw [Affine.new, if_neg (by decide), hproduct, Option.bind_eq_bind, Option.bind_some,
      hdifference]
    rfl
  have hthen : unmoved.andThen scaling = some scaling := by
    simp only [Affine.andThen, unmoved, scaling, Offset.scaled, Offset.plus, Ratio.mul, Ratio.add,
      divisor_eq_gcd, quotient_eq_div]
    rfl
  have htransformed : unscaledSpan.mapping.transformed scaling = some crossing.mapping := by
    simp only [unscaledSpan, Mapping.transformed, Approach.transformed, hthen]
    rfl
  have hscaled : unscaledSpan.scaledFrom (0, 1) (0, 1) (1, 323) = some crossing :=
    scaledFrom_eq_some.mpr ⟨_, _, _, _, _, hzero, hzero, hscale, haffine, htransformed,
      crossing_validates, rfl⟩
  exact .scaledFrom unscaledSpan_reachable hscaled

def crossingChunk : AudioChunk Unit SteadyRate :=
  ⟨⟨sampleRate, 1⟩, 0, 0, some crossing, 2, 0, [(), ()]⟩

theorem crossingChunk_resident : Resident crossingChunk := by
  refine ⟨by decide, by decide, by decide, ?_⟩
  rintro s hs
  obtain rfl := Option.some.inj hs
  refine ⟨crossing_reachable, by decide, fun f r hr => ?_⟩
  obtain ⟨hfirst, hbetween, hlast⟩ := crossing_ratioAt
  by_cases hf : f ≤ 2
  · rw [sourceRatioAt_inside hf] at hr
    obtain rfl | rfl | rfl : f = 0 ∨ f = 1 ∨ f = 2 := by omega
    · rw [hfirst] at hr
      obtain rfl := Option.some.inj hr
      decide
    · rw [hbetween] at hr
      cases hr
    · rw [hlast] at hr
      obtain rfl := Option.some.inj hr
      decide
  · rw [SourceSpan.sourceRatioAt, if_pos (by exact Nat.not_le.mp hf)] at hr
    cases hr

theorem crossingChunk_fitting : Fitting crossingChunk := by
  rintro s hs
  obtain rfl := Option.some.inj hs
  exact ⟨rfl, rfl⟩

instance : RaisedCosine Unit where
  shaped _ _ := id

/-- One leading frame, and a chunk whose second frame has no source position: the push is refused
and the leading frame forgotten. -/
theorem refused_cut_spends_leading :
    ¬ ∀ t : Trimmer Unit SteadyRate, Reachable t → ∀ chunk, Resident chunk →
      ∀ e t', t.push chunk = (.error e, t') → t' = t := by
  intro h
  have hatomic := h (.ofInfo ⟨1, 0⟩) (.ofInfo ⟨1, 0⟩) crossingChunk crossingChunk_resident
  obtain ⟨error, hpush⟩ := (push_cut crossingChunk_fitting (t := .ofInfo ⟨1, 0⟩) rfl
    crossingChunk_resident Nat.one_pos (by decide)).2 fun hreads => crossing_unread (hreads _ rfl)
  have hmode := congrArg Trimmer.mode (hatomic _ _ hpush)
  exact absurd (GaplessMode.fixed.inj hmode).1 Nat.zero_ne_one

/-- The same chunk with a frame count that is not its own. -/
def misshapenChunk : AudioChunk Unit SteadyRate := { crossingChunk with frames := 1 }

theorem misshapenChunk_resident : Resident misshapenChunk :=
  ⟨crossingChunk_resident.samples, by decide, by decide, crossingChunk_resident.attached⟩

/-- It is refused with the leading frame still to come, and the trimmer stays as it was. -/
theorem errors_atomic_iff_misshapen :
    ∃ e, (Trimmer.ofInfo ⟨1, 0⟩).push misshapenChunk = (.error e, .ofInfo ⟨1, 0⟩) := by
  have hsafe : SafeCut (.ofInfo ⟨1, 0⟩) misshapenChunk := by
    intro leading fade _ hfits
    have hframes := (hfits crossing rfl).2
    exact absurd hframes (by decide)
  have hatomic := ((errors_atomic_iff (.ofInfo ⟨1, 0⟩) (.ofInfo ⟨1, 0⟩)).2.2 misshapenChunk
    misshapenChunk_resident).1.mpr hsafe
  obtain ⟨error, hrefused⟩ : ∃ error,
      ((Trimmer.ofInfo ⟨1, 0⟩).push misshapenChunk).1 = .error error := ⟨_, rfl⟩
  exact ⟨error, Prod.ext hrefused (hatomic error _ (Prod.ext hrefused rfl))⟩

end GaplessErrors

import Kithara.SpanInvariant
import Mathlib.Tactic.FinCases

/-! The telemetry words of rational spans. Splitting and joining are inverse on machine words,
the signed coefficient is its two's complement, and a decoded array is its own encoding, so the
words and the validated spans they stand for determine each other. -/
namespace SpanWire

open CheckedArithmetic SpanRatio SpanMapping SpanGeometry SpanInvariant ArithmeticProgression

variable {C : Type} [ExponentialApproach C]

def withMappingRevision (s : SourceSpan C) (revision : Option ℕ+) : SourceSpan C :=
  { s with mappingRevision := revision }

def withRenderRevision (s : SourceSpan C) (revision : ℕ) : SourceSpan C :=
  { s with renderRevision := revision }

/-- Spans the constructors produce, stamped with revisions, sliced, joined and rescaled. -/
inductive Produced : SourceSpan C → Prop where
  | reachable {s} (hs : Reachable s) : Produced s
  | withMappingRevision {s revision} (hs : Produced s) : Produced (withMappingRevision s revision)
  | withRenderRevision {s revision} (hs : Produced s) : Produced (withRenderRevision s revision)
  | forOutputRange {s first last t} (hs : Produced s)
      (h : s.forOutputRange first last = some t) : Produced t
  | followedBy {s next t} (hs : Produced s) (hn : Produced next)
      (h : s.followedBy next = some t) : Produced t
  | scaledFrom {s pivot position scale t} (hs : Produced s)
      (h : s.scaledFrom pivot position scale = some t) : Produced t
  | mapOutputSpan {s origin span t} (hs : Produced s) (hp : Produced span)
      (h : s.mapOutputSpan origin span = some t) : Produced t
  | rebaseOutput {s previous next t} (hs : Produced s)
      (h : s.rebaseOutput previous next = some t) : Produced t

theorem produced_validated {s : SourceSpan C} (h : Produced s) : Validated s := by
  induction h with
  | reachable hs => exact reachable_validated hs
  | withMappingRevision _ ih => exact ⟨ih.valid, ih.frames_lt, ih.wide⟩
  | withRenderRevision _ ih => exact ⟨ih.valid, ih.frames_lt, ih.wide⟩
  | forOutputRange _ h ih => exact forOutputRange_validated ih h
  | followedBy _ _ h ih _ => exact followedBy_validated ih h
  | scaledFrom _ h ih => exact scaledFrom_validated ih h
  | mapOutputSpan _ _ h _ ih =>
    obtain ⟨_, _, _, _, _, _, _, _, _, h⟩ := mapOutputSpan_eq_some.mp h
    exact scaledFrom_validated ih h
  | rebaseOutput _ h ih =>
    obtain ⟨_, _, _, _, _, _, _, _, _, h⟩ := rebaseOutput_eq_some.mp h
    exact scaledFrom_validated ih h

structure Fits (s : SourceSpan C) : Prop where
  rate : (s.sampleRate : ℕ) < 2 ^ 32
  render : s.renderRevision < 2 ^ 64
  mapping : ∀ revision ∈ s.mappingRevision, (revision : ℕ) < 2 ^ 64

theorem joined_split (value : ℕ) : joined (split value).1 (split value).2 = value := by
  have hlow : (split value).1 < 2 ^ 64 := Nat.mod_lt _ (Nat.two_pow_pos 64)
  rw [joined, Nat.or_comm, ← Nat.shiftLeft_add_eq_or_of_lt hlow, Nat.shiftLeft_eq]
  exact Nat.div_add_mod' value (2 ^ 64)

theorem split_lt {value : ℕ} (h : value < 2 ^ 128) :
    (split value).1 < 2 ^ 64 ∧ (split value).2 < 2 ^ 64 := by
  refine ⟨Nat.mod_lt _ (Nat.two_pow_pos 64), ?_⟩
  refine (Nat.div_lt_iff_lt_mul (Nat.two_pow_pos 64)).mpr ?_
  rw [← pow_add]
  exact h

theorem unsigned_lt (value : ℤ) : unsigned value < 2 ^ 128 := by
  unfold unsigned
  omega

theorem signed_unsigned {value : ℤ} (hleast : -2 ^ 127 ≤ value) (hgreatest : value < 2 ^ 127) :
    signed (unsigned value) = value := by
  unfold signed unsigned
  split <;> omega

def rationalWords (s : SourceSpan C) (m : Rational) : Words :=
  SourceSpan.toWords ({ s with mapping := .rational m } : SourceSpan C)

theorem toWords_rational {s : SourceSpan C} {m : Rational} (hm : s.mapping = .rational m) :
    s.toWords = rationalWords s m := by
  rw [rationalWords, ← hm]

theorem nonZero_elim (revision : Option ℕ+) : nonZero (revision.elim 0 PNat.val) = revision := by
  cases revision with
  | none => rfl
  | some value => exact nonZero_eq_some.mpr rfl

theorem toWords_lt {s : SourceSpan C} {m : Rational} (hm : s.mapping = .rational m)
    (hs : Validated s) (hf : Fits s) (i : Fin 24) : s.toWords.get i < 2 ^ 64 := by
  have hwide := hs.wide
  rw [hm] at hwide
  obtain ⟨hn, hn'⟩ := split_lt hwide.numerator
  obtain ⟨hd, hd'⟩ := split_lt hwide.denominator
  obtain ⟨hstep, hstep'⟩ := split_lt hwide.step
  obtain ⟨hc, hc'⟩ := split_lt (unsigned_lt m.stepChange)
  have hzero : 0 < 2 ^ 64 := Nat.two_pow_pos 64
  have hrevision : s.mappingRevision.elim 0 PNat.val < 2 ^ 64 := by
    cases hr : s.mappingRevision with
    | none => exact hzero
    | some revision => exact hf.mapping revision hr
  have hrate : (s.sampleRate : ℕ) < 2 ^ 64 := hf.rate.trans (by norm_num)
  have hframes := hs.frames_lt
  have hrender := hf.render
  rw [toWords_rational hm]
  fin_cases i <;> first | assumption | exact hzero | exact Nat.one_lt_two_pow (by omega)

theorem ofWords_toWords {s : SourceSpan C} {m : Rational} (hm : s.mapping = .rational m)
    (hs : Validated s) (hf : Fits s) : SourceSpan.ofWords s.toWords = some s := by
  have hwide := hs.wide
  rw [hm] at hwide
  have hrate : ¬((rationalWords s m)[0] ≠ 1 ∨ 2 ^ 32 ≤ (rationalWords s m)[2]) := by
    show ¬(1 ≠ 1 ∨ 2 ^ 32 ≤ (s.sampleRate : ℕ))
    have := hf.rate
    omega
  have hread : SourceSpan.readMapping s.toWords = some s.mapping := by
    rw [toWords_rational hm, hm]
    show (do
      let denominator ← nonZero (joined (split m.denominator).1 (split m.denominator).2)
      pure (Mapping.rational ⟨joined (split m.numerator).1 (split m.numerator).2, denominator,
        joined (split m.step).1 (split m.step).2,
        signed (joined (split (unsigned m.stepChange)).1 (split (unsigned m.stepChange)).2)⟩)) = _
    rw [joined_split, joined_split, joined_split, joined_split,
      signed_unsigned hwide.least hwide.greatest, nonZero_eq_some.mpr rfl]
    rfl
  have hrateWord : nonZero (rationalWords s m)[2] = some s.sampleRate := nonZero_eq_some.mpr rfl
  have hrevision : nonZero (rationalWords s m)[5] = s.mappingRevision :=
    nonZero_elim s.mappingRevision
  unfold SourceSpan.ofWords
  rw [toWords_rational hm] at hread ⊢
  rw [if_neg hrate, hrateWord, hread, hrevision]
  have hframes : (rationalWords s m)[3] = s.outputFrames := rfl
  rw [Option.bind_eq_bind, Option.bind_some, Option.bind_eq_bind, Option.bind_some, hframes,
    hs.valid, Option.bind_eq_bind, Option.bind_some]
  exact if_neg (not_not.mpr (toWords_rational hm))

/-- What the checks of the decoder leave of an accepted array. -/
theorem ofWords_accepted {w : Words} {s : SourceSpan C} (h : SourceSpan.ofWords w = some s) :
    s.toWords = w ∧ (s.sampleRate : ℕ) < 2 ^ 32 ∧ (∃ i, s.renderRevision = w.get i) ∧
      ∃ i, s.mappingRevision = nonZero (w.get i) := by
  unfold SourceSpan.ofWords at h
  split at h
  · contradiction
  · next hhead =>
    simp only [Option.bind_eq_bind, Option.bind_eq_some_iff] at h
    obtain ⟨rate, hrate, mapping, hmapping, u, hu, h⟩ := h
    rw [nonZero_eq_some] at hrate
    split at h
    · contradiction
    · next hsame =>
      obtain rfl := Option.some.inj h
      refine ⟨not_not.mp hsame, ?_, ⟨4, rfl⟩, 5, rfl⟩
      rw [← hrate]
      by_contra hwide
      exact hhead (.inr (Nat.le_of_not_lt hwide))

theorem ofWords_fits {w : Words} {s : SourceSpan C} (hw : ∀ i : Fin 24, w.get i < 2 ^ 64)
    (h : SourceSpan.ofWords w = some s) : Fits s := by
  obtain ⟨_, hrate, ⟨i, hrender⟩, j, hrevision⟩ := ofWords_accepted h
  refine ⟨hrate, hrender ▸ hw i, ?_⟩
  intro revision hmem
  rw [hrevision] at hmem
  rw [← nonZero_eq_some.mp hmem]
  exact hw j

/-- Both endpoints of a validated rational span are frames, and its last advance is not negative,
an empty span having none. -/
theorem validated_geometry {s : SourceSpan C} {m : Rational} (hs : Validated s)
    (hm : s.mapping = .rational m) :
    (∃ first last, s.start = some first ∧ s.finish = some last ∧ first < 2 ^ 64 ∧
      last < 2 ^ 64) ∧ (0 < s.outputFrames → ∃ advance, m.stepAt (s.outputFrames - 1) = some advance ∧
        (advance : ℤ) = m.progression.stepAt (s.outputFrames - 1)) := by
  constructor
  · obtain ⟨r, hr, _⟩ := sourceRatioAt_position hs hm (Nat.zero_le s.outputFrames)
    obtain ⟨q, hq, _⟩ := sourceRatioAt_position hs hm (le_refl s.outputFrames)
    obtain ⟨first, hfirst⟩ := sourceFrame_isSome hs hm hr
    obtain ⟨last, hlast⟩ := sourceFrame_isSome hs hm hq
    refine ⟨first, last, ?_, ?_, (sourceFrame_eq_some.mp hfirst).2, (sourceFrame_eq_some.mp hlast).2⟩
    · rw [SourceSpan.start, ← sourceRatioAt_inside (Nat.zero_le _), hr]
      exact hfirst
    · rw [SourceSpan.finish, ← sourceRatioAt_inside le_rfl, hq]
      exact hlast
  · intro hpositive
    have hstep := (validated_progress hs hm).stepAt (a := s.outputFrames - 1) (by omega)
    exact hstep

/-- The words of a rational span that was produced decode to it; and an accepted array is the
encoding of the span it decodes to, whose endpoints are frames and whose last advance is not
negative. -/
theorem wire_bijective :
    (∀ (s : SourceSpan C) m, Produced s → s.mapping = .rational m → Fits s →
      (∀ i : Fin 24, s.toWords.get i < 2 ^ 64) ∧ SourceSpan.ofWords s.toWords = some s) ∧
    (∀ (w : Words) (s : SourceSpan C), (∀ i : Fin 24, w.get i < 2 ^ 64) →
      SourceSpan.ofWords w = some s → s.toWords = w ∧ Validated s ∧ Fits s ∧
        ∀ m, s.mapping = .rational m →
          (∃ first last, s.start = some first ∧ s.finish = some last ∧ first < 2 ^ 64 ∧
            last < 2 ^ 64) ∧
          (0 < s.outputFrames → ∃ advance, m.stepAt (s.outputFrames - 1) = some advance ∧
            (advance : ℤ) = m.progression.stepAt (s.outputFrames - 1))) := by
  refine ⟨?_, ?_⟩
  · intro s m hs hm hf
    exact ⟨toWords_lt hm (produced_validated hs) hf, ofWords_toWords hm (produced_validated hs) hf⟩
  · intro w s hw h
    have hv := ofWords_validated hw h
    exact ⟨(ofWords_accepted h).1, hv, ofWords_fits hw h, fun m hm => validated_geometry hv hm⟩

theorem wire_bijective_slowing :
    SourceSpan.ofWords (withRenderRevision slowingSpan 7).toWords =
      some (withRenderRevision slowingSpan 7) := by
  have hfits : Fits (withRenderRevision slowingSpan 7) := by
    refine ⟨by decide, by decide, ?_⟩
    intro revision hmem
    cases hmem
  exact (wire_bijective.1 _ slowing (.withRenderRevision (.reachable slowing_reachable)) rfl
    hfits).2

end SpanWire

import Kithara.SpanMapping

/-! Source intervals behind physical output intervals: constructors, slices, joins, exact
rescaling, and the 24-word telemetry form. Machine words are naturals; a word array is
well formed when each entry fits 64 bits. -/
namespace SpanGeometry

open CheckedArithmetic SpanRatio SpanAffine SpanMapping

structure SourceSpan (C : Type) where
  sampleRate : ℕ+
  mappingRevision : Option ℕ+
  mapping : Mapping C
  outputFrames : ℕ
  renderRevision : ℕ

def split (value : ℕ) : ℕ × ℕ := (value % 2 ^ 64, value / 2 ^ 64)

def joined (low high : ℕ) : ℕ := low ||| high <<< 64

/-- The two's complement reading of a 128-bit word, and its inverse. -/
def signed (word : ℕ) : ℤ := if word < 2 ^ 127 then word else word - 2 ^ 128

def unsigned (value : ℤ) : ℕ := (value % 2 ^ 128).toNat

abbrev Words := Vector ℕ 24

def readRatio (w : Words) (first : ℕ) : Option Ratio := do
  let denominator ← nonZero (joined (w[first + 2]?.getD 0) (w[first + 3]?.getD 0))
  Ratio.new (joined (w[first]?.getD 0) (w[first + 1]?.getD 0)) denominator

/-- The remainder loop of the endpoint constructor. -/
def euclid (divisor remainder : ℕ) : ℕ :=
  if _ : remainder = 0 then divisor else euclid remainder (divisor % remainder)
termination_by remainder
decreasing_by exact Nat.mod_lt _ (by omega)

namespace SourceSpan

variable {C : Type} [ExponentialApproach C]

def approaching (origin : ℕ) (originDenominator : ℕ+) (curve : C) (elapsed : ℕ) (sampleRate : ℕ+)
    (outputFrames : ℕ) : Option (SourceSpan C) :=
  if outputFrames = 0 then none
  else do
    let origin ← Ratio.new origin originDenominator
    let affine ← Affine.identity
    let mapping : Mapping C := .approach { curve, elapsed, origin, affine }
    let _ ← mapping.validate outputFrames
    pure { sampleRate, mappingRevision := none, mapping, outputFrames, renderRevision := 0 }

def ofProgression (start step : ℕ) (stepChange : ℤ) (denominator sampleRate : ℕ+)
    (outputFrames : ℕ) : Option (SourceSpan C) :=
  if outputFrames = 0 then none
  else do
    let mapping : Mapping C := .rational { numerator := start, step, stepChange, denominator }
    let _ ← mapping.validate outputFrames
    pure { sampleRate, mappingRevision := none, mapping, outputFrames, renderRevision := 0 }

def ofAffine (start step : ℕ) (denominator sampleRate : ℕ+) (outputFrames : ℕ) :
    Option (SourceSpan C) :=
  ofProgression start step 0 denominator sampleRate outputFrames

def new (start finish : ℕ) (sampleRate : ℕ+) (outputFrames : ℕ) : Option (SourceSpan C) := do
  let sourceFrames ← checkedSub finish start
  let divisor := euclid sourceFrames outputFrames
  let reduced ← (if divisor = 0 then none else some (outputFrames / divisor))
  let denominator ← nonZero reduced
  ofAffine (start * denominator) (sourceFrames / divisor) denominator sampleRate outputFrames

def toWords (s : SourceSpan C) : Words :=
  let revision := s.mappingRevision.elim 0 PNat.val
  match s.mapping with
  | .rational m =>
    #v[1, 0, s.sampleRate, s.outputFrames, s.renderRevision, revision,
      (split m.numerator).1, (split m.numerator).2,
      (split m.denominator).1, (split m.denominator).2,
      (split m.step).1, (split m.step).2,
      (split (unsigned m.stepChange)).1, (split (unsigned m.stepChange)).2,
      0, 0, 0, 0, 0, 0, 0, 0, 0, 0]
  | .approach a =>
    let (initial, target, timeConstant) := ExponentialApproach.toBits a.curve
    let (subtract, offset) := match a.affine.offset with
      | .add offset => (0, offset)
      | .subtract offset => (1, offset)
    #v[1, 1, s.sampleRate, s.outputFrames, s.renderRevision, revision,
      initial, target, timeConstant, a.elapsed,
      (split a.origin.numerator).1, (split a.origin.numerator).2,
      (split a.origin.denominator).1, (split a.origin.denominator).2,
      (split a.affine.scale.numerator).1, (split a.affine.scale.numerator).2,
      (split a.affine.scale.denominator).1, (split a.affine.scale.denominator).2,
      subtract,
      (split offset.numerator).1, (split offset.numerator).2,
      (split offset.denominator).1, (split offset.denominator).2, 0]

def readApproach (w : Words) : Option (Approach C) := do
  let offset ← readRatio w 19
  let offset ← (match w[18] with
    | 0 => some (Offset.add offset)
    | 1 => some (Offset.subtract offset)
    | _ => none)
  let scale ← readRatio w 14
  if scale.numerator = 0 then none
  else
    let curve ← ExponentialApproach.ofBits (w[6], w[7], w[8])
    let origin ← readRatio w 10
    pure { curve, elapsed := w[9], origin, affine := ⟨scale, offset⟩ }

def readMapping (w : Words) : Option (Mapping C) :=
  match w[1] with
  | 0 => do
    let denominator ← nonZero (joined w[8] w[9])
    pure (.rational { numerator := joined w[6] w[7], denominator, step := joined w[10] w[11],
                      stepChange := signed (joined w[12] w[13]) })
  | 1 => (readApproach w).map .approach
  | _ => none

/-- Rejects malformed words, and words that do not encode the span they decode to. -/
def ofWords (w : Words) : Option (SourceSpan C) :=
  if w[0] ≠ 1 ∨ 2 ^ 32 ≤ w[2] then none
  else do
    let sampleRate ← nonZero w[2]
    let mapping : Mapping C ← readMapping w
    let _ ← mapping.validate w[3]
    let span : SourceSpan C :=
      { sampleRate, mappingRevision := nonZero w[5], mapping, outputFrames := w[3],
        renderRevision := w[4] }
    if span.toWords ≠ w then none else some span

def sourceRatioAt (s : SourceSpan C) (outputFrame : ℕ) : Option Ratio :=
  if outputFrame > s.outputFrames then none else s.mapping.ratioAt outputFrame

/-- First source frame; absent exactly where the code declares the branch unreachable. -/
def start (s : SourceSpan C) : Option ℕ := (s.mapping.ratioAt 0).bind Ratio.sourceFrame

/-- Exclusive source frame; absent exactly where the code declares the branch unreachable. -/
def finish (s : SourceSpan C) : Option ℕ :=
  (s.mapping.ratioAt s.outputFrames).bind Ratio.sourceFrame

def followedBy (s next : SourceSpan C) : Option (SourceSpan C) :=
  if s.sampleRate ≠ next.sampleRate ∨ s.renderRevision ≠ next.renderRevision ∨
      s.mappingRevision ≠ next.mappingRevision then none
  else do
    let mapping ← s.mapping.followedBy next.mapping s.outputFrames
    let outputFrames ← checkedAdd 64 s.outputFrames next.outputFrames
    let _ ← mapping.validate outputFrames
    pure { s with mapping, outputFrames }

def forOutputRange (s : SourceSpan C) (first last : ℕ) : Option (SourceSpan C) :=
  if first > last ∨ last > s.outputFrames then none
  else if first = 0 ∧ last = s.outputFrames ∧ s.outputFrames ≠ 0 then some s
  else do
    let mapping ← s.mapping.sliced first (last - first)
    let _ ← mapping.validate (last - first)
    pure { s with mapping, outputFrames := last - first }

def scaledFrom (s : SourceSpan C) (pivot position scale : ℕ × ℕ+) : Option (SourceSpan C) := do
  let pivot ← Ratio.new pivot.1 pivot.2
  let position ← Ratio.new position.1 position.2
  let scale ← Ratio.new scale.1 scale.2
  let affine ← Affine.new pivot position scale
  let mapping ← s.mapping.transformed affine
  let _ ← mapping.validate s.outputFrames
  pure { s with mapping }

def affineBasis (s : SourceSpan C) : Option (Ratio × Ratio) :=
  match s.mapping with
  | .rational m =>
    if m.stepChange = 0 then do
      let origin ← Ratio.new m.numerator m.denominator
      let step ← Ratio.new m.step m.denominator
      pure (origin, step)
    else none
  | .approach _ => none

def mapOutputSpan (s : SourceSpan C) (outputOrigin : ℕ) (span : SourceSpan C) :
    Option (SourceSpan C) := do
  let (origin, step) ← s.affineBasis
  let rate ← Ratio.new span.sampleRate s.sampleRate
  let origin ← origin.mul rate
  let step ← step.mul rate
  span.scaledFrom (outputOrigin, nonZeroMin) (origin.numerator, origin.denominator)
    (step.numerator, step.denominator)

def rebaseOutput (s : SourceSpan C) (previous next : ℕ) : Option (SourceSpan C) := do
  let (origin, step) ← s.affineBasis
  let distance ← Ratio.new (max previous next - min previous next) nonZeroMin
  let advance ← step.mul distance
  let position ← (if next < previous then origin.sub advance else origin.add advance)
  s.scaledFrom (origin.numerator, origin.denominator) (position.numerator, position.denominator)
    (1, nonZeroMin)

end SourceSpan

variable {C : Type} [ExponentialApproach C]

/-- Spans built by a checked constructor from machine words and transformed by the five
operations. -/
inductive Reachable : SourceSpan C → Prop where
  | new {start finish rate frames s} (hstart : start < 2 ^ 64) (hfinish : finish < 2 ^ 64)
      (hf : frames < 2 ^ 64) (h : SourceSpan.new start finish rate frames = some s) : Reachable s
  | ofAffine {start step rate frames s} {denominator : ℕ+} (hstep : step < 2 ^ 128)
      (hd : (denominator : ℕ) < 2 ^ 128) (hf : frames < 2 ^ 64)
      (h : SourceSpan.ofAffine start step denominator rate frames = some s) : Reachable s
  | ofProgression {start step stepChange rate frames s} {denominator : ℕ+} (hstep : step < 2 ^ 128)
      (hleast : -2 ^ 127 ≤ stepChange) (hgreatest : stepChange < 2 ^ 127)
      (hd : (denominator : ℕ) < 2 ^ 128) (hf : frames < 2 ^ 64)
      (h : SourceSpan.ofProgression start step stepChange denominator rate frames = some s) :
      Reachable s
  | approaching {origin denominator curve elapsed rate frames s} (hf : frames < 2 ^ 64)
      (h : SourceSpan.approaching origin denominator curve elapsed rate frames = some s) :
      Reachable s
  | ofWords {w : Words} {s} (hw : ∀ i : Fin 24, w[i] < 2 ^ 64)
      (h : SourceSpan.ofWords w = some s) : Reachable s
  | forOutputRange {s first last t} (hs : Reachable s)
      (h : s.forOutputRange first last = some t) : Reachable t
  | followedBy {s next t} (hs : Reachable s) (hn : Reachable next)
      (h : s.followedBy next = some t) : Reachable t
  | scaledFrom {s pivot position scale t} (hs : Reachable s)
      (h : s.scaledFrom pivot position scale = some t) : Reachable t
  | mapOutputSpan {s origin span t} (hs : Reachable s) (hp : Reachable span)
      (h : s.mapOutputSpan origin span = some t) : Reachable t
  | rebaseOutput {s previous next t} (hs : Reachable s)
      (h : s.rebaseOutput previous next = some t) : Reachable t

/-- What every constructor and operation checks before it answers, within machine widths. -/
structure Validated (s : SourceSpan C) : Prop where
  valid : s.mapping.validate s.outputFrames = some ()
  frames_lt : s.outputFrames < 2 ^ 64
  wide : s.mapping.Wide

theorem joined_lt {low high : ℕ} (hl : low < 2 ^ 64) (hh : high < 2 ^ 64) :
    joined low high < 2 ^ 128 := by
  refine Nat.or_lt_two_pow (hl.trans (by norm_num)) ?_
  rw [Nat.shiftLeft_eq]
  calc high * 2 ^ 64 < 2 ^ 64 * 2 ^ 64 := Nat.mul_lt_mul_of_pos_right hh (Nat.two_pow_pos 64)
    _ = 2 ^ 128 := by norm_num

theorem signed_bounds {word : ℕ} (h : word < 2 ^ 128) :
    -2 ^ 127 ≤ signed word ∧ signed word < 2 ^ 127 := by
  simp only [signed]
  split <;> constructor <;> omega

theorem ratioAt_zero_lt {m : Rational} {frames : ℕ}
    (h : (Mapping.rational m : Mapping C).validate frames = some ()) : m.numerator < 2 ^ 128 := by
  simp only [Mapping.validate, Mapping.ratioAt, Option.bind_eq_bind, Option.bind_eq_some_iff] at h
  obtain ⟨_, _, r, ⟨n, hn, _⟩, _⟩ := h
  obtain ⟨_, _, _, _, _, hv, hlt⟩ := numeratorAt_eq_some.mp hn
  rw [progression_value_zero] at hv
  omega

theorem ofProgression_validated {start step stepChange rate frames} {denominator : ℕ+}
    {s : SourceSpan C} (hstep : step < 2 ^ 128) (hleast : -2 ^ 127 ≤ stepChange)
    (hgreatest : stepChange < 2 ^ 127) (hd : (denominator : ℕ) < 2 ^ 128) (hf : frames < 2 ^ 64)
    (h : SourceSpan.ofProgression start step stepChange denominator rate frames = some s) :
    Validated s := by
  simp only [SourceSpan.ofProgression] at h
  split at h
  · contradiction
  · simp only [Option.bind_eq_bind, Option.bind_eq_some_iff, Option.pure_def,
      Option.some.injEq] at h
    obtain ⟨u, hu, rfl⟩ := h
    exact ⟨hu, hf, ratioAt_zero_lt hu, hd, hstep, hleast, hgreatest⟩

theorem new_validated {start finish rate frames} {s : SourceSpan C} (hfinish : finish < 2 ^ 64)
    (hf : frames < 2 ^ 64) (h : SourceSpan.new start finish rate frames = some s) :
    Validated s := by
  simp only [SourceSpan.new, Option.bind_eq_bind, Option.bind_eq_some_iff] at h
  obtain ⟨source, hsource, reduced, hreduced, denominator, hdenominator, h⟩ := h
  rw [checkedSub_eq_some] at hsource
  have hstep : source / euclid source frames ≤ source := Nat.div_le_self _ _
  have hden : (denominator : ℕ) ≤ frames := by
    rw [← nonZero_eq_some.mp hdenominator]
    split at hreduced
    · contradiction
    · rw [← Option.some.inj hreduced]
      exact Nat.div_le_self _ _
  refine ofProgression_validated ?_ ?_ ?_ ?_ hf h <;> omega

theorem approaching_validated {origin denominator curve elapsed rate frames} {s : SourceSpan C}
    (hf : frames < 2 ^ 64)
    (h : SourceSpan.approaching origin denominator curve elapsed rate frames = some s) :
    Validated s := by
  simp only [SourceSpan.approaching] at h
  split at h
  · contradiction
  · simp only [Option.bind_eq_bind, Option.bind_eq_some_iff, Option.pure_def,
      Option.some.injEq] at h
    obtain ⟨_, _, _, _, u, hu, rfl⟩ := h
    exact ⟨hu, hf, trivial⟩

theorem readMapping_wide {w : Words} (hw : ∀ i : Fin 24, w[i] < 2 ^ 64) {mapping : Mapping C}
    (hv : mapping.validate w[3] = some ()) (h : SourceSpan.readMapping w = some mapping) :
    mapping.Wide := by
  simp only [SourceSpan.readMapping] at h
  split at h
  · simp only [Option.bind_eq_bind, Option.bind_eq_some_iff, Option.pure_def,
      Option.some.injEq] at h
    obtain ⟨denominator, hd, rfl⟩ := h
    obtain ⟨hleast, hgreatest⟩ := signed_bounds (joined_lt (hw 12) (hw 13))
    refine ⟨ratioAt_zero_lt hv, ?_, joined_lt (hw 10) (hw 11), hleast, hgreatest⟩
    show (denominator : ℕ) < 2 ^ 128
    rw [← nonZero_eq_some.mp hd]
    exact joined_lt (hw 8) (hw 9)
  · obtain ⟨a, _, rfl⟩ := Option.map_eq_some_iff.mp h
    trivial
  · contradiction

theorem ofWords_validated {w : Words} {s : SourceSpan C} (hw : ∀ i : Fin 24, w[i] < 2 ^ 64)
    (h : SourceSpan.ofWords w = some s) : Validated s := by
  simp only [SourceSpan.ofWords] at h
  split at h
  · contradiction
  · simp only [Option.bind_eq_bind, Option.bind_eq_some_iff] at h
    obtain ⟨rate, _, mapping, hm, u, hu, h⟩ := h
    split at h
    · contradiction
    · obtain rfl := Option.some.inj h
      exact ⟨hu, hw 3, readMapping_wide hw hu hm⟩

theorem mapping_followedBy_self {mapping next t : Mapping C} {frames : ℕ}
    (h : mapping.followedBy next frames = some t) : t = mapping := by
  simp only [Mapping.followedBy] at h
  split at h
  · obtain ⟨r, hr, rfl⟩ := Option.map_eq_some_iff.mp h
    rw [(rational_followedBy_eq_some.mp hr).1]
  · obtain ⟨a, ha, rfl⟩ := Option.map_eq_some_iff.mp h
    rw [(approach_followedBy_eq_some.mp ha).1]
  · contradiction

theorem followedBy_eq_some {s next t : SourceSpan C} :
    s.followedBy next = some t ↔ s.sampleRate = next.sampleRate ∧
      s.renderRevision = next.renderRevision ∧ s.mappingRevision = next.mappingRevision ∧
      s.mapping.followedBy next.mapping s.outputFrames = some s.mapping ∧
      s.outputFrames + next.outputFrames < 2 ^ 64 ∧
      s.mapping.validate (s.outputFrames + next.outputFrames) = some () ∧
      t = { s with outputFrames := s.outputFrames + next.outputFrames } := by
  simp only [SourceSpan.followedBy]
  split
  · next hne =>
    simp only [reduceCtorEq, false_iff]
    rintro ⟨h1, h2, h3, _⟩
    rcases hne with hne | hne | hne <;> contradiction
  · next heq =>
    simp only [not_or, not_not] at heq
    obtain ⟨h1, h2, h3⟩ := heq
    simp only [Option.bind_eq_bind, Option.bind_eq_some_iff, Option.pure_def, Option.some.injEq]
    constructor
    · rintro ⟨mapping, hm, frames, hf, u, hu, rfl⟩
      obtain rfl := mapping_followedBy_self hm
      obtain ⟨rfl, hlt⟩ := checkedAdd_eq_some.mp hf
      exact ⟨h1, h2, h3, hm, hlt, hu, rfl⟩
    · rintro ⟨_, _, _, hm, hlt, hu, rfl⟩
      exact ⟨_, hm, _, checkedAdd_eq_some.mpr ⟨rfl, hlt⟩, (), hu, rfl⟩

theorem followedBy_validated {s next t : SourceSpan C} (hs : Validated s)
    (h : s.followedBy next = some t) : Validated t := by
  obtain ⟨_, _, _, _, hlt, hu, rfl⟩ := followedBy_eq_some.mp h
  exact ⟨hu, hlt, hs.wide⟩

theorem forOutputRange_validated {s t : SourceSpan C} {first last : ℕ} (hs : Validated s)
    (h : s.forOutputRange first last = some t) : Validated t := by
  simp only [SourceSpan.forOutputRange] at h
  split at h
  · contradiction
  · next hb =>
    split at h
    · obtain rfl := Option.some.inj h
      exact hs
    · simp only [Option.bind_eq_bind, Option.bind_eq_some_iff, Option.pure_def,
        Option.some.injEq] at h
      obtain ⟨mapping, hm, u, hu, rfl⟩ := h
      have hlt := hs.frames_lt
      exact ⟨hu, by show last - first < 2 ^ 64; omega, mapping_sliced_wide hs.wide hm⟩

/-- A rescaled span applies one positive affine map to the coordinates it reads. -/
theorem scaledFrom_eq_some {s t : SourceSpan C} {pivot position scale : ℕ × ℕ+} :
    s.scaledFrom pivot position scale = some t ↔
      ∃ p q r affine mapping, Ratio.new pivot.1 pivot.2 = some p ∧
        Ratio.new position.1 position.2 = some q ∧ Ratio.new scale.1 scale.2 = some r ∧
        Affine.new p q r = some affine ∧ s.mapping.transformed affine = some mapping ∧
        mapping.validate s.outputFrames = some () ∧ t = { s with mapping } := by
  simp only [SourceSpan.scaledFrom, Option.bind_eq_bind, Option.bind_eq_some_iff,
    Option.pure_def, Option.some.injEq]
  constructor
  · rintro ⟨p, hp, q, hq, r, hr, affine, ha, mapping, hm, u, hu, rfl⟩
    exact ⟨p, q, r, affine, mapping, hp, hq, hr, ha, hm, hu, rfl⟩
  · rintro ⟨p, q, r, affine, mapping, hp, hq, hr, ha, hm, hu, rfl⟩
    exact ⟨p, hp, q, hq, r, hr, affine, ha, mapping, hm, (), hu, rfl⟩

theorem scaledFrom_validated {s t : SourceSpan C} {pivot position scale : ℕ × ℕ+}
    (hs : Validated s) (h : s.scaledFrom pivot position scale = some t) : Validated t := by
  obtain ⟨p, q, r, affine, mapping, _, _, _, _, hm, hu, rfl⟩ := scaledFrom_eq_some.mp h
  exact ⟨hu, hs.frames_lt, mapping_transformed_wide hm⟩

theorem mapOutputSpan_eq_some {s span t : SourceSpan C} {origin : ℕ} :
    s.mapOutputSpan origin span = some t ↔
      ∃ first step rate start advance, s.affineBasis = some (first, step) ∧
        Ratio.new span.sampleRate s.sampleRate = some rate ∧ first.mul rate = some start ∧
        step.mul rate = some advance ∧
        span.scaledFrom (origin, 1) (start.numerator, start.denominator)
          (advance.numerator, advance.denominator) = some t := by
  simp only [SourceSpan.mapOutputSpan, Option.bind_eq_bind, Option.bind_eq_some_iff]
  constructor
  · rintro ⟨⟨first, step⟩, hb, rate, hr, start, hs, advance, ha, h⟩
    exact ⟨first, step, rate, start, advance, hb, hr, hs, ha, h⟩
  · rintro ⟨first, step, rate, start, advance, hb, hr, hs, ha, h⟩
    exact ⟨(first, step), hb, rate, hr, start, hs, advance, ha, h⟩

theorem rebaseOutput_eq_some {s t : SourceSpan C} {previous next : ℕ} :
    s.rebaseOutput previous next = some t ↔
      ∃ origin step distance advance position, s.affineBasis = some (origin, step) ∧
        Ratio.new (max previous next - min previous next) 1 = some distance ∧
        step.mul distance = some advance ∧
        (if next < previous then origin.sub advance else origin.add advance) = some position ∧
        s.scaledFrom (origin.numerator, origin.denominator)
          (position.numerator, position.denominator) (1, 1) = some t := by
  simp only [SourceSpan.rebaseOutput, Option.bind_eq_bind, Option.bind_eq_some_iff]
  constructor
  · rintro ⟨⟨origin, step⟩, hb, distance, hd, advance, ha, position, hp, h⟩
    exact ⟨origin, step, distance, advance, position, hb, hd, ha, hp, h⟩
  · rintro ⟨origin, step, distance, advance, position, hb, hd, ha, hp, h⟩
    exact ⟨(origin, step), hb, distance, hd, advance, ha, position, hp, h⟩

theorem reachable_validated {s : SourceSpan C} (h : Reachable s) : Validated s := by
  induction h with
  | new _ hfinish hf h => exact new_validated hfinish hf h
  | ofAffine hstep hd hf h =>
    exact ofProgression_validated hstep (by omega) (by omega) hd hf h
  | ofProgression hstep hleast hgreatest hd hf h =>
    exact ofProgression_validated hstep hleast hgreatest hd hf h
  | approaching hf h => exact approaching_validated hf h
  | ofWords hw h => exact ofWords_validated hw h
  | forOutputRange _ h ih => exact forOutputRange_validated ih h
  | followedBy _ _ h ih => exact followedBy_validated ih h
  | scaledFrom _ h ih => exact scaledFrom_validated ih h
  | mapOutputSpan _ _ h _ ih =>
    obtain ⟨_, _, _, _, _, _, _, _, _, h⟩ := mapOutputSpan_eq_some.mp h
    exact scaledFrom_validated ih h
  | rebaseOutput _ h ih =>
    obtain ⟨_, _, _, _, _, _, _, _, _, h⟩ := rebaseOutput_eq_some.mp h
    exact scaledFrom_validated ih h

end SpanGeometry

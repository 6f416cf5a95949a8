import Kithara.SpanClock
import Kithara.SpanSlicing

/-! Cutting a span that any constructor built. A rational span may be cut at every frame; a curve
only where it has a source position, which its affine image may not fit into 128 bits. -/
namespace SpanCuts

open CheckedArithmetic SpanRatio SpanAffine SpanMapping SpanGeometry SpanInvariant SpanSlicing
open SpanClock

variable {C : Type} [ExponentialApproach C]

def Reads (s : SourceSpan C) (frame : ℕ) : Prop :=
  ∃ r, s.sourceRatioAt frame = some r ∧ r.sourceFrame.isSome

/-- A span in machine words: its rate in 32 bits, its coordinates in 128. -/
structure Attached (s : SourceSpan C) : Prop where
  reachable : Reachable s
  rate : (s.sampleRate : ℕ) < 2 ^ 32
  narrow : ∀ f r, s.sourceRatioAt f = some r → (r.denominator : ℕ) < 2 ^ 128

/-- `v` carries `length` frames of `s` from frame `a` on. -/
structure Slice (s v : SourceSpan C) (a length : ℕ) : Prop where
  frames : v.outputFrames = length
  within : a + length ≤ s.outputFrames
  rate : v.sampleRate = s.sampleRate
  render : v.renderRevision = s.renderRevision
  revision : v.mappingRevision = s.mappingRevision
  positions : ∀ k, k ≤ length → v.sourceRatioAt k = s.sourceRatioAt (a + k)

theorem slice_whole (s : SourceSpan C) : Slice s s 0 s.outputFrames :=
  ⟨rfl, by omega, rfl, rfl, rfl, fun k _ => by rw [Nat.zero_add]⟩

theorem Slice.comp {s v w : SourceSpan C} {a b length rest : ℕ} (h : Slice s v a length)
    (hw : Slice v w b rest) : Slice s w (a + b) rest := by
  have hwithin := hw.within
  rw [h.frames] at hwithin
  have hlength := h.within
  refine ⟨hw.frames, by omega, hw.rate.trans h.rate, hw.render.trans h.render,
    hw.revision.trans h.revision, fun k hk => ?_⟩
  rw [hw.positions k hk, h.positions (b + k) (by omega), Nat.add_assoc]

theorem slice_reads {s v : SourceSpan C} {a length k : ℕ} (h : Slice s v a length)
    (hk : k ≤ length) : Reads v k ↔ Reads s (a + k) := by
  rw [Reads, Reads, h.positions k hk]

theorem slice_positionAt {s v : SourceSpan C} {a length k : ℕ} (h : Slice s v a length)
    (hk : k ≤ length) : positionAt v k = positionAt s (a + k) := by
  simp only [positionAt, h.positions k hk, h.rate]

theorem slice_attached {s v : SourceSpan C} {a length first last : ℕ} (hs : Attached s)
    (h : Slice s v a length) (hv : s.forOutputRange first last = some v) : Attached v := by
  refine ⟨hs.reachable.forOutputRange hv, ?_, fun f r hr => ?_⟩
  · rw [h.rate]
    exact hs.rate
  · have hf : f ≤ length := by
      by_contra hover
      rw [SourceSpan.sourceRatioAt, if_pos (by rw [h.frames]; omega)] at hr
      cases hr
    rw [h.positions f hf] at hr
    exact hs.narrow _ r hr

theorem validate_reads {s : SourceSpan C} (h : s.mapping.validate s.outputFrames = some ()) :
    Reads s 0 ∧ Reads s s.outputFrames := by
  simp only [Mapping.validate, Option.bind_eq_bind, Option.bind_eq_some_iff] at h
  obtain ⟨_, _, r, hr, n, hn, q, hq, m, hm, _⟩ := h
  constructor
  · exact ⟨r, by rw [sourceRatioAt_inside (Nat.zero_le _), hr], by rw [hn]; rfl⟩
  · exact ⟨q, by rw [sourceRatioAt_inside le_rfl, hq], by rw [hm]; rfl⟩

theorem rational_reads {s : SourceSpan C} {m : Rational} (hs : Validated s)
    (hm : s.mapping = .rational m) {k : ℕ} (hk : k ≤ s.outputFrames) : Reads s k := by
  obtain ⟨r, hr, _⟩ := sourceRatioAt_position (f := k) hs hm hk
  obtain ⟨frame, hframe⟩ := sourceFrame_isSome hs hm hr
  exact ⟨r, hr, by rw [hframe]; rfl⟩

/-- A curve cut at a frame answers as the curve does from that frame on. -/
theorem approach_sliced {a next : Approach C} {start : ℕ} (h : a.sliced start = some next)
    (k : ℕ) : next.ratioAt k = a.ratioAt (start + k) := by
  simp only [Approach.sliced, Option.bind_eq_bind, Option.bind_eq_some_iff, Option.pure_def,
    Option.some.injEq] at h
  obtain ⟨elapsed, he, rfl⟩ := h
  obtain ⟨he, _⟩ := checkedAdd_eq_some.mp he
  simp only [Approach.ratioAt, Approach.advanceAt, ← he, checkedAdd_assoc]

theorem approach_sliced_isSome {a : Approach C} {start : ℕ} {r : Ratio}
    (h : a.ratioAt start = some r) : ∃ next, a.sliced start = some next := by
  simp only [Approach.ratioAt, Option.bind_eq_bind, Option.bind_eq_some_iff] at h
  obtain ⟨elapsed, he, _⟩ := h
  exact ⟨{ a with elapsed }, by rw [Approach.sliced, he]; rfl⟩

theorem forOutputRange_slice {s v : SourceSpan C} (hs : Validated s) {a b : ℕ}
    (h : s.forOutputRange a b = some v) : Slice s v a (b - a) := by
  have hrange : a ≤ b ∧ b ≤ s.outputFrames := by
    by_contra hbad
    rw [SourceSpan.forOutputRange, if_pos (by omega)] at h
    cases h
  obtain ⟨hab, hb⟩ := hrange
  cases hm : s.mapping with
  | rational m =>
    obtain ⟨t, hc, ht⟩ := forOutputRange_eq hs hm hab hb
    obtain rfl := Option.some.inj (ht.symm.trans h)
    refine ⟨rfl, by omega, rfl, rfl, rfl, fun k hk => ?_⟩
    obtain ⟨v, hv, hpositions⟩ := slice_sourceRatioAt hs hm hab hb
    obtain rfl := Option.some.inj (hv.symm.trans ht)
    exact hpositions k hk
  | approach curve =>
    rw [SourceSpan.forOutputRange, if_neg (by omega)] at h
    split at h
    · next hwhole =>
      obtain rfl := Option.some.inj h
      rw [hwhole.1, hwhole.2.1]
      exact slice_whole s
    · simp only [hm, Mapping.sliced, Option.bind_eq_bind, Option.bind_eq_some_iff,
        Option.map_eq_some_iff, Option.pure_def, Option.some.injEq] at h
      obtain ⟨_, ⟨next, hnext, rfl⟩, _, _, rfl⟩ := h
      refine ⟨rfl, by omega, rfl, rfl, rfl, fun k hk => ?_⟩
      rw [sourceRatioAt_inside (by exact hk), sourceRatioAt_inside (by omega), hm]
      exact approach_sliced hnext k

/-- A span can be cut exactly between two frames that it has source frames at. -/
theorem forOutputRange_isSome {s : SourceSpan C} (hs : Validated s) {a b : ℕ} (hab : a ≤ b)
    (hb : b ≤ s.outputFrames) : (∃ v, s.forOutputRange a b = some v) ↔ Reads s a ∧ Reads s b := by
  constructor
  · rintro ⟨v, hv⟩
    have hslice := forOutputRange_slice hs hv
    obtain ⟨hfirst, hlast⟩ := validate_reads (forOutputRange_validated hs hv).valid
    rw [slice_reads hslice (Nat.zero_le _)] at hfirst
    rw [hslice.frames, slice_reads hslice le_rfl, Nat.add_sub_cancel' hab] at hlast
    exact ⟨hfirst, hlast⟩
  · rintro ⟨⟨r, hr, hfirst⟩, ⟨q, hq, hlast⟩⟩
    cases hm : s.mapping with
    | rational m =>
      obtain ⟨t, _, ht⟩ := forOutputRange_eq hs hm hab hb
      exact ⟨_, ht⟩
    | approach curve =>
      rw [sourceRatioAt_inside (by omega), hm] at hr hq
      obtain ⟨next, hnext⟩ := approach_sliced_isSome hr
      have hstart : next.ratioAt 0 = some r := by
        rw [approach_sliced hnext]
        exact hr
      have hfinish : next.ratioAt (b - a) = some q := by
        rw [approach_sliced hnext, Nat.add_sub_cancel' hab]
        exact hq
      have hvalid : (Mapping.approach next).validate (b - a) = some () := by
        obtain ⟨n, hn⟩ := Option.isSome_iff_exists.mp hfirst
        obtain ⟨e, he⟩ := Option.isSome_iff_exists.mp hlast
        simp [Mapping.validate, Mapping.lastStep, Mapping.ratioAt, hstart, hfinish, hn, he]
      rw [SourceSpan.forOutputRange, if_neg (by omega)]
      split
      · exact ⟨s, rfl⟩
      · refine ⟨{ s with mapping := .approach next, outputFrames := b - a }, ?_⟩
        simp [hm, Mapping.sliced, hnext, hvalid]

theorem positionAt_isSome {s : SourceSpan C} (hs : Attached s) {k : ℕ} (h : Reads s k) :
    ∃ position, positionAt s k = some position := by
  obtain ⟨r, hr, hframe⟩ := h
  obtain ⟨frame, hframe⟩ := Option.isSome_iff_exists.mp hframe
  obtain ⟨hquotient, hlt⟩ := sourceFrame_eq_some.mp hframe
  have hseconds : r.numerator / r.denominator / s.sampleRate < 2 ^ 64 := by
    rw [hquotient]
    exact lt_of_le_of_lt (Nat.div_le_self _ _) hlt
  obtain ⟨position, hp, _⟩ := positionAt_floor (hs.narrow k r hr) hs.rate hr hseconds
  exact ⟨position, hp⟩

theorem reachable_reads {s : SourceSpan C} (hs : Reachable s) :
    Reads s 0 ∧ Reads s s.outputFrames :=
  validate_reads (reachable_validated hs).valid

end SpanCuts

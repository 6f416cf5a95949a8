import Kithara.SeekGeometry
import Kithara.SpanCuts

/-! A decoded chunk and the two cuts of gapless trimming: samples, frame offset, source span and
timestamps are cut together. `audio` reads a chunk frame by frame. -/
namespace GaplessChunks

open SpanRatio SpanMapping SpanGeometry SpanClock SpanCuts SeekGeometry

variable {S C : Type}

/-- Durations in nanoseconds, counts in frames; samples are interleaved. -/
structure AudioChunk (S C : Type) where
  spec : AudioSpec
  endTimestamp : ℕ
  timestamp : ℕ
  sourceSpan : Option (SourceSpan C)
  frames : ℕ
  frameOffset : ℕ
  samples : List S

namespace AudioChunk

def chunkFrames (c : AudioChunk S C) : ℕ := c.samples.length / c.spec.channels

def channels (c : AudioChunk S C) : ℕ := max c.spec.channels 1

end AudioChunk

open AudioChunk

def geometryError : DecodeError := .invalidData "gapless PCM has invalid source geometry"

def validateGeometry (c : AudioChunk S C) : Except DecodeError Unit :=
  match c.sourceSpan with
  | some span =>
    if span.outputFrames ≠ c.chunkFrames ∨ c.frames ≠ c.chunkFrames then .error geometryError
    else .ok ()
  | none => .ok ()

/-- How far the timestamp of an unmapped chunk moves; all of 64 bits where a clock overflows. -/
def trimDuration (rate : ℕ+) (first offset : ℕ) : ℕ :=
  match durationFor rate first, durationFor rate offset with
  | .ok finish, .ok start => finish - start
  | _, _ => 2 ^ 64 - 1

def dropFrames (c : AudioChunk S C) (trimFrames : ℕ) : AudioChunk S C :=
  let samples := c.samples.drop (saturating 64 (trimFrames * c.channels))
  { c with
    samples
    frameOffset := saturating 64 (c.frameOffset + trimFrames)
    frames := saturating 32 (samples.length / c.channels) }

def keepFrames (c : AudioChunk S C) (kept : ℕ) : AudioChunk S C :=
  { c with
    samples := c.samples.take (saturating 64 (kept * c.channels))
    frames := saturating 32 kept }

def moveTimestamp (c : AudioChunk S C) (offset : ℕ) : AudioChunk S C :=
  { c with
    timestamp := min (c.timestamp + trimDuration c.spec.sampleRate c.frameOffset offset)
      maxDuration }

section Fields

variable (c : AudioChunk S C) (offset : ℕ)

@[simp] theorem moveTimestamp_spec : (moveTimestamp c offset).spec = c.spec := by
  cases c
  rfl

@[simp] theorem moveTimestamp_endTimestamp :
    (moveTimestamp c offset).endTimestamp = c.endTimestamp := by
  cases c
  rfl

@[simp] theorem moveTimestamp_sourceSpan :
    (moveTimestamp c offset).sourceSpan = c.sourceSpan := by
  cases c
  rfl

@[simp] theorem moveTimestamp_frames : (moveTimestamp c offset).frames = c.frames := by
  cases c
  rfl

@[simp] theorem moveTimestamp_frameOffset :
    (moveTimestamp c offset).frameOffset = c.frameOffset := by
  cases c
  rfl

@[simp] theorem moveTimestamp_samples : (moveTimestamp c offset).samples = c.samples := by
  cases c
  rfl

@[simp] theorem moveTimestamp_timestamp : (moveTimestamp c offset).timestamp =
    min (c.timestamp + trimDuration c.spec.sampleRate c.frameOffset offset) maxDuration := by
  cases c
  rfl

end Fields

theorem chunkFrames_congr {c e : AudioChunk S C} (hspec : e.spec = c.spec)
    (hsamples : e.samples = c.samples) : e.chunkFrames = c.chunkFrames := by
  rw [chunkFrames, chunkFrames, hspec, hsamples]

def unmappedTimestamp (c : AudioChunk S C) (a : ℕ) : ℕ :=
  if a = 0 then c.timestamp
  else min (c.timestamp +
    trimDuration c.spec.sampleRate (saturating 64 (c.frameOffset + a)) c.frameOffset) maxDuration

def Fitting (c : AudioChunk S C) : Prop :=
  ∀ s, c.sourceSpan = some s → s.outputFrames = c.chunkFrames ∧ c.frames = c.chunkFrames

theorem validateGeometry_ok {c : AudioChunk S C} : validateGeometry c = .ok () ↔ Fitting c := by
  cases hspan : c.sourceSpan with
  | none => simp [validateGeometry, Fitting, hspan]
  | some s =>
    simp only [validateGeometry, Fitting, hspan, Option.some.injEq, forall_eq']
    constructor
    · intro h
      split at h
      · cases h
      · omega
    · rintro ⟨hframes, hmeta⟩
      exact if_neg (by omega)

theorem saturating_of_lt {bits value : ℕ} (h : value < 2 ^ bits) : saturating bits value = value :=
  Nat.min_eq_left (by omega)

theorem saturating_add (bits a b : ℕ) :
    saturating bits (saturating bits a + b) = saturating bits (a + b) := by
  simp only [saturating]
  omega

theorem channels_eq {c : AudioChunk S C} (h : 0 < c.chunkFrames) :
    c.channels = c.spec.channels ∧ 0 < c.spec.channels := by
  have hpos : 0 < c.spec.channels := by
    rw [chunkFrames] at h
    by_contra hzero
    rw [Nat.eq_zero_of_not_pos hzero, Nat.div_zero] at h
    exact absurd h (lt_irrefl 0)
  exact ⟨max_eq_left hpos, hpos⟩

theorem frames_within {c : AudioChunk S C} (h : 0 < c.chunkFrames) {k : ℕ}
    (hk : k ≤ c.chunkFrames) : k * c.channels ≤ c.samples.length := by
  rw [(channels_eq h).1]
  exact (Nat.mul_le_mul_right _ hk).trans (Nat.div_mul_le_self _ _)

section Samples

variable {c : AudioChunk S C} (hsamples : c.samples.length < 2 ^ 64)
include hsamples

theorem samples_dropFrames {k : ℕ} (hk : k < c.chunkFrames) :
    (dropFrames c k).samples = c.samples.drop (k * c.channels) := by
  have hle := frames_within (by omega) hk.le
  rw [dropFrames, saturating_of_lt (lt_of_le_of_lt hle hsamples)]

theorem samples_keepFrames {k : ℕ} (hk : k < c.chunkFrames) :
    (keepFrames c k).samples = c.samples.take (k * c.channels) := by
  have hle := frames_within (by omega) hk.le
  rw [keepFrames, saturating_of_lt (lt_of_le_of_lt hle hsamples)]

theorem chunkFrames_dropFrames {k : ℕ} (hk : k < c.chunkFrames) :
    (dropFrames c k).chunkFrames = c.chunkFrames - k := by
  obtain ⟨hchannels, hpos⟩ := channels_eq (c := c) (by omega)
  have hle := frames_within (by omega) hk.le
  rw [hchannels, Nat.mul_comm] at hle
  show (dropFrames c k).samples.length / c.spec.channels = c.samples.length / c.spec.channels - k
  rw [samples_dropFrames hsamples hk, List.length_drop, hchannels, Nat.mul_comm k,
    Nat.sub_mul_div _ _ _]

theorem chunkFrames_keepFrames {k : ℕ} (hk : k < c.chunkFrames) :
    (keepFrames c k).chunkFrames = k := by
  obtain ⟨hchannels, hpos⟩ := channels_eq (c := c) (by omega)
  have hle := frames_within (by omega) hk.le
  show (keepFrames c k).samples.length / c.spec.channels = k
  rw [samples_keepFrames hsamples hk, List.length_take, min_eq_left hle, hchannels,
    Nat.mul_div_cancel _ hpos]

end Samples

variable [ExponentialApproach C]

/-- Cuts the span and reads both timestamps off it; answers whether there was one. -/
def trimSourceSpan (c : AudioChunk S C) (first last : ℕ) :
    Except DecodeError (AudioChunk S C × Bool) :=
  match c.sourceSpan with
  | none => .ok (c, false)
  | some span => do
    let _ ← validateGeometry c
    let span ← okOr (span.forOutputRange first last) geometryError
    let timestamp ← okOr (positionAt span 0) geometryError
    let endTimestamp ← okOr (positionAt span span.outputFrames) geometryError
    .ok ({ c with
      sourceSpan := some span
      timestamp := nanoseconds timestamp
      endTimestamp := nanoseconds endTimestamp }, true)

def trimChunkStart (c : AudioChunk S C) (trimFrames : ℕ) : Except DecodeError (AudioChunk S C) := do
  let (cut, mapped) ← trimSourceSpan c trimFrames c.chunkFrames
  if mapped then .ok (dropFrames cut trimFrames)
  else .ok (moveTimestamp (dropFrames cut trimFrames) c.frameOffset)

def trimChunkEnd (c : AudioChunk S C) (trimFrames : ℕ) : Except DecodeError (AudioChunk S C) := do
  let (cut, _) ← trimSourceSpan c 0 (c.chunkFrames - trimFrames)
  .ok (keepFrames cut (c.chunkFrames - trimFrames))

/-- Consumes the leading frames; the count is spent even where the cut is refused. -/
def trimLeading (c : AudioChunk S C) (leadingRemaining : ℕ) :
    Except DecodeError (Option (AudioChunk S C)) × ℕ :=
  if 0 < leadingRemaining then
    if c.chunkFrames ≤ leadingRemaining then (.ok none, leadingRemaining - c.chunkFrames)
    else ((trimChunkStart c leadingRemaining).map some, 0)
  else (.ok (some c), leadingRemaining)

/-- One frame: the offset and the source position a chunk beginning at it carries, and its
samples. -/
structure Frame (S : Type) where
  offset : ℕ
  position : Option Ratio
  samples : List S

def frame (c : AudioChunk S C) (j : ℕ) : Frame S where
  offset := saturating 64 (c.frameOffset + j)
  position := c.sourceSpan.bind (·.sourceRatioAt j)
  samples := (c.samples.drop (j * c.channels)).take c.channels

def audio (c : AudioChunk S C) : List (Frame S) := (List.range c.chunkFrames).map (frame c)

/-- A chunk value: its samples lie in one buffer, its counts in their words, and its span is one a
constructor built. -/
structure Resident (c : AudioChunk S C) : Prop where
  samples : c.samples.length < 2 ^ 64
  frames : c.frames < 2 ^ 32
  offset : c.frameOffset < 2 ^ 64
  attached : ∀ s, c.sourceSpan = some s → Attached s

def CutReadable (c : AudioChunk S C) (cut : ℕ) : Prop :=
  ∀ s, c.sourceSpan = some s → Reads s cut

/-- `e` describes frames of `c` from frame `a` on: their offset, span and timestamps, whatever
became of the samples. -/
structure CutFrom (c : AudioChunk S C) (a : ℕ) (e : AudioChunk S C) : Prop where
  spec : e.spec = c.spec
  within : a + e.chunkFrames ≤ c.chunkFrames
  offset : e.frameOffset = saturating 64 (c.frameOffset + a)
  unmapped : c.sourceSpan = none → e.sourceSpan = none ∧ e.timestamp = unmappedTimestamp c a ∧
    e.endTimestamp = c.endTimestamp
  mapped : ∀ s, c.sourceSpan = some s → ∃ v, e.sourceSpan = some v ∧
    Slice s v a e.chunkFrames ∧
    (a = 0 ∧ e.chunkFrames = c.chunkFrames ∧ e.timestamp = c.timestamp ∧
        e.endTimestamp = c.endTimestamp ∨
      ∃ p q, positionAt s a = some p ∧ positionAt s (a + e.chunkFrames) = some q ∧
        e.timestamp = nanoseconds p ∧ e.endTimestamp = nanoseconds q)

@[simp] theorem length_audio (c : AudioChunk S C) : (audio c).length = c.chunkFrames := by
  simp [audio]

theorem audio_eq {c e : AudioChunk S C} {a : ℕ} (hwithin : a + e.chunkFrames ≤ c.chunkFrames)
    (hframes : ∀ j, j < e.chunkFrames → frame e j = frame c (a + j)) :
    audio e = ((audio c).drop a).take e.chunkFrames := by
  refine List.ext_getElem (by simp; omega) fun j hj _ => ?_
  rw [length_audio] at hj
  simp [audio, hframes j hj]

/-- The span, the offset and the samples of two chunks agree frame by frame. -/
theorem frame_eq {c e : AudioChunk S C} {a j : ℕ} (hcut : CutFrom c a e) (hj : j < e.chunkFrames)
    (hsamples : (e.samples.drop (j * e.channels)).take e.channels =
      (c.samples.drop ((a + j) * c.channels)).take c.channels) :
    frame e j = frame c (a + j) := by
  have hposition : e.sourceSpan.bind (·.sourceRatioAt j) =
      c.sourceSpan.bind (·.sourceRatioAt (a + j)) := by
    cases hspan : c.sourceSpan with
    | none => rw [(hcut.unmapped hspan).1]; rfl
    | some s =>
      obtain ⟨v, hv, hslice, _⟩ := hcut.mapped s hspan
      rw [hv]
      exact hslice.positions j hj.le
  rw [frame, frame, hposition, hsamples, hcut.offset, saturating_add, Nat.add_assoc]

section Cuts

variable {c : AudioChunk S C} (hres : Resident c) (hfits : Fitting c)
include hres hfits

theorem mapped_validated {s : SourceSpan C} (hspan : c.sourceSpan = some s) :
    Attached s ∧ Validated s ∧ s.outputFrames = c.chunkFrames := by
  have hattached := hres.attached s hspan
  exact ⟨hattached, reachable_validated hattached.reachable, (hfits s hspan).1⟩

/-- Cutting the span succeeds exactly between two readable frames. -/
theorem trimSourceSpan_isOk {a b : ℕ} (hab : a ≤ b) (hb : b ≤ c.chunkFrames) :
    (∃ cut, trimSourceSpan c a b = .ok cut) ↔ CutReadable c a ∧ CutReadable c b := by
  cases hspan : c.sourceSpan with
  | none => simp [trimSourceSpan, CutReadable, hspan]
  | some s =>
    obtain ⟨hattached, hvalid, hframes⟩ := mapped_validated hres hfits hspan
    have hiff := forOutputRange_isSome hvalid hab (by omega)
    simp only [CutReadable, hspan, Option.some.injEq, forall_eq']
    rw [← hiff]
    constructor
    · rintro ⟨cut, hcut⟩
      rw [trimSourceSpan, hspan] at hcut
      simp only [validateGeometry_ok.mpr hfits, ok_bind] at hcut
      cases hv : s.forOutputRange a b with
      | none => rw [hv] at hcut; cases hcut
      | some v => exact ⟨v, rfl⟩
    · rintro ⟨v, hv⟩
      have hslice := forOutputRange_slice hvalid hv
      have hcut := slice_attached hattached hslice hv
      obtain ⟨hfirst, hlast⟩ := reachable_reads hcut.reachable
      obtain ⟨p, hp⟩ := positionAt_isSome hcut hfirst
      obtain ⟨q, hq⟩ := positionAt_isSome hcut hlast
      rw [trimSourceSpan, hspan]
      simp only [validateGeometry_ok.mpr hfits, ok_bind, hv, okOr_some, hp, hq]
      exact ⟨_, rfl⟩

theorem trimSourceSpan_eq {a b : ℕ} {cut : AudioChunk S C × Bool}
    (h : trimSourceSpan c a b = .ok cut) :
    c.sourceSpan = none ∧ cut = (c, false) ∨
      ∃ s v p q, c.sourceSpan = some s ∧ Slice s v a (b - a) ∧ Attached v ∧
        positionAt v 0 = some p ∧ positionAt v (b - a) = some q ∧
        cut = ({ c with
          sourceSpan := some v
          timestamp := nanoseconds p
          endTimestamp := nanoseconds q }, true) := by
  cases hspan : c.sourceSpan with
  | none =>
    rw [trimSourceSpan, hspan] at h
    exact .inl ⟨rfl, (Except.ok.inj h).symm⟩
  | some s =>
    obtain ⟨hattached, hvalid, _⟩ := mapped_validated hres hfits hspan
    rw [trimSourceSpan, hspan] at h
    simp only [validateGeometry_ok.mpr hfits, ok_bind] at h
    cases hv : s.forOutputRange a b with
    | none => rw [hv] at h; cases h
    | some v =>
      have hslice := forOutputRange_slice hvalid hv
      cases hp : positionAt v 0 with
      | none => rw [hv, okOr_some, ok_bind, hp] at h; cases h
      | some p =>
        cases hq : positionAt v v.outputFrames with
        | none => rw [hv, okOr_some, ok_bind, hp, okOr_some, ok_bind, hq] at h; cases h
        | some q =>
          rw [hv, okOr_some, ok_bind, hp, okOr_some, ok_bind, hq, okOr_some, ok_bind] at h
          rw [hslice.frames] at hq
          exact .inr ⟨s, v, p, q, rfl, hslice, slice_attached hattached hslice hv, hp, hq,
            (Except.ok.inj h).symm⟩

theorem trimChunkStart_isOk {k : ℕ} (hk : k < c.chunkFrames) :
    (∃ e, trimChunkStart c k = .ok e) ↔ CutReadable c k := by
  have hiff := trimSourceSpan_isOk hres hfits hk.le le_rfl
  have hend : CutReadable c c.chunkFrames := by
    intro s hspan
    obtain ⟨hattached, _, hframes⟩ := mapped_validated hres hfits hspan
    rw [← hframes]
    exact (reachable_reads hattached.reachable).2
  rw [← and_iff_left (a := CutReadable c k) hend, ← hiff]
  constructor
  · rintro ⟨e, he⟩
    rw [trimChunkStart] at he
    cases hcut : trimSourceSpan c k c.chunkFrames with
    | error error => rw [hcut] at he; cases he
    | ok cut => exact ⟨cut, rfl⟩
  · rintro ⟨⟨cut, mapped⟩, hcut⟩
    rw [trimChunkStart, hcut, ok_bind]
    cases mapped
    · exact ⟨_, rfl⟩
    · exact ⟨_, rfl⟩

theorem trimChunkEnd_isOk (k : ℕ) :
    (∃ e, trimChunkEnd c k = .ok e) ↔ CutReadable c (c.chunkFrames - k) := by
  have hiff := trimSourceSpan_isOk hres hfits (Nat.zero_le _) (Nat.sub_le c.chunkFrames k)
  have hstart : CutReadable c 0 := by
    intro s hspan
    exact (reachable_reads (hres.attached s hspan).reachable).1
  rw [← and_iff_right (b := CutReadable c (c.chunkFrames - k)) hstart, ← hiff]
  constructor
  · rintro ⟨e, he⟩
    rw [trimChunkEnd] at he
    cases hcut : trimSourceSpan c 0 (c.chunkFrames - k) with
    | error error => rw [hcut] at he; cases he
    | ok cut => exact ⟨cut, rfl⟩
  · rintro ⟨cut, hcut⟩
    rw [trimChunkEnd, hcut, ok_bind]
    exact ⟨_, rfl⟩

end Cuts

/-- `e` is `length` frames of `c` from frame `a` on, samples included. -/
structure Trimmed (c : AudioChunk S C) (a length : ℕ) (e : AudioChunk S C) : Prop where
  cut : CutFrom c a e
  frames : e.chunkFrames = length
  audio : audio e = ((audio c).drop a).take length
  resident : Resident e
  fitting : Fitting e

section Cutting

variable {c e : AudioChunk S C} {k : ℕ} (hres : Resident c) (hfits : Fitting c)
include hres hfits

theorem mapped_cut {s v : SourceSpan C} {a length : ℕ} {p q : ℕ × ℕ}
    (hspan : c.sourceSpan = some s) (hlength : e.chunkFrames = length)
    (hslice : Slice s v a length) (hp : positionAt v 0 = some p)
    (hq : positionAt v length = some q) (hspec : e.spec = c.spec)
    (hoffset : e.frameOffset = saturating 64 (c.frameOffset + a)) (hv : e.sourceSpan = some v)
    (htimestamp : e.timestamp = nanoseconds p) (hend : e.endTimestamp = nanoseconds q) :
    CutFrom c a e := by
  subst hlength
  have hframes := (mapped_validated hres hfits hspan).2.2
  have hwithin := hslice.within
  rw [slice_positionAt hslice (Nat.zero_le _), Nat.add_zero] at hp
  rw [slice_positionAt hslice le_rfl] at hq
  refine ⟨hspec, by omega, hoffset, ?_, fun t ht => ?_⟩
  · intro hnone
    rw [hnone] at hspan
    cases hspan
  · obtain rfl := Option.some.inj (ht.symm.trans hspan)
    exact ⟨v, hv, hslice, .inr ⟨p, q, hp, hq, htimestamp, hend⟩⟩

theorem trimChunkStart_cut (hpos : 0 < k) (hk : k < c.chunkFrames)
    (h : trimChunkStart c k = .ok e) :
    CutFrom c k e ∧ e.samples = (dropFrames c k).samples ∧ e.frames = (dropFrames c k).frames ∧
      ∀ v, e.sourceSpan = some v → Attached v := by
  have hchunk := chunkFrames_dropFrames hres.samples hk
  rw [trimChunkStart] at h
  cases hcut : trimSourceSpan c k c.chunkFrames with
  | error error => rw [hcut] at h; cases h
  | ok cut =>
    rw [hcut, ok_bind] at h
    obtain ⟨hnone, rfl⟩ | ⟨s, v, p, q, hsome, hslice, hv, hp, hq, rfl⟩ :=
      trimSourceSpan_eq hres hfits hcut
    · obtain rfl := Except.ok.inj h
      have hframes : (moveTimestamp (dropFrames c k) c.frameOffset).chunkFrames =
          (dropFrames c k).chunkFrames :=
        chunkFrames_congr (moveTimestamp_spec _ _) (moveTimestamp_samples _ _)
      have hspan : (moveTimestamp (dropFrames c k) c.frameOffset).sourceSpan = none := by
        rw [moveTimestamp_sourceSpan]
        exact hnone
      refine ⟨⟨?_, by omega, ?_, fun _ => ⟨hspan, ?_, ?_⟩, by simp [hnone]⟩, ?_, ?_, ?_⟩
      · rw [moveTimestamp_spec, dropFrames]
      · rw [moveTimestamp_frameOffset, dropFrames]
      · rw [moveTimestamp_timestamp, unmappedTimestamp, if_neg (by omega), dropFrames]
      · rw [moveTimestamp_endTimestamp, dropFrames]
      · exact moveTimestamp_samples _ _
      · exact moveTimestamp_frames _ _
      · rw [hspan]
        simp
    · obtain rfl := Except.ok.inj h
      refine ⟨mapped_cut hres hfits hsome ?_ hslice hp hq rfl rfl rfl rfl rfl, rfl, rfl, ?_⟩
      · exact (chunkFrames_congr (c := dropFrames c k) rfl rfl).trans hchunk
      · rintro w hw
        obtain rfl := Option.some.inj hw
        exact hv

theorem trimChunkEnd_cut (hpos : 0 < k) (hk : k < c.chunkFrames)
    (h : trimChunkEnd c k = .ok e) :
    CutFrom c 0 e ∧ e.samples = (keepFrames c (c.chunkFrames - k)).samples ∧
      e.frames = saturating 32 (c.chunkFrames - k) ∧ ∀ v, e.sourceSpan = some v → Attached v := by
  have hchunk := chunkFrames_keepFrames hres.samples (show c.chunkFrames - k < _ by omega)
  have hoffset : c.frameOffset = saturating 64 (c.frameOffset + 0) :=
    (saturating_of_lt hres.offset).symm
  rw [trimChunkEnd] at h
  cases hcut : trimSourceSpan c 0 (c.chunkFrames - k) with
  | error error => rw [hcut] at h; cases h
  | ok cut =>
    rw [hcut, ok_bind] at h
    obtain rfl := Except.ok.inj h
    obtain ⟨hnone, rfl⟩ | ⟨s, v, p, q, hsome, hslice, hv, hp, hq, rfl⟩ :=
      trimSourceSpan_eq hres hfits hcut
    · refine ⟨⟨rfl, ?_, hoffset, fun _ => ⟨hnone, ?_, rfl⟩, by simp [hnone]⟩, rfl, rfl, ?_⟩
      · rw [hchunk]
        omega
      · rw [unmappedTimestamp, if_pos rfl, keepFrames]
      · rw [show (keepFrames c (c.chunkFrames - k)).sourceSpan = c.sourceSpan from rfl, hnone]
        simp
    · rw [Nat.sub_zero] at hslice hq
      refine ⟨mapped_cut hres hfits hsome ?_ hslice hp hq rfl hoffset rfl rfl rfl, rfl, rfl, ?_⟩
      · exact (chunkFrames_congr (c := keepFrames c (c.chunkFrames - k)) rfl rfl).trans hchunk
      · rintro w hw
        obtain rfl := Option.some.inj hw
        exact hv

/-- A cut of the metadata with a cut of the samples behind it. -/
theorem trimmed_of_cut {a length : ℕ} (hcut : CutFrom c a e) (hlength : e.chunkFrames = length)
    (hsamples : ∀ j, j < length → (e.samples.drop (j * c.channels)).take c.channels =
      (c.samples.drop ((a + j) * c.channels)).take c.channels)
    (hbytes : e.samples.length ≤ c.samples.length) (hframes : e.frames = saturating 32 length)
    (hattached : ∀ v, e.sourceSpan = some v → Attached v) : Trimmed c a length e := by
  subst hlength
  have hchannels : e.channels = c.channels := by rw [channels, channels, hcut.spec]
  refine ⟨hcut, rfl, audio_eq hcut.within fun j hj => frame_eq hcut hj ?_, ⟨?_, ?_, ?_, hattached⟩,
    ?_⟩
  · rw [hchannels]
    exact hsamples j hj
  · exact lt_of_le_of_lt hbytes hres.samples
  · rw [hframes, saturating]
    omega
  · rw [hcut.offset, saturating]
    omega
  · intro v hv
    cases hspan : c.sourceSpan with
    | none =>
      rw [(hcut.unmapped hspan).1] at hv
      cases hv
    | some s =>
      obtain ⟨w, hw, hslice, _⟩ := hcut.mapped s hspan
      obtain rfl := Option.some.inj (hw.symm.trans hv)
      have hshort := hres.frames
      have hwithin := hcut.within
      rw [(hfits s hspan).2] at hshort
      exact ⟨hslice.frames, by rw [hframes, saturating_of_lt (by omega)]⟩

theorem trimChunkStart_trimmed (hpos : 0 < k) (hk : k < c.chunkFrames)
    (h : trimChunkStart c k = .ok e) : Trimmed c k (c.chunkFrames - k) e := by
  obtain ⟨hcut, hsamples, hframes, hattached⟩ := trimChunkStart_cut hres hfits hpos hk h
  have hlength : e.chunkFrames = c.chunkFrames - k := by
    rw [chunkFrames_congr (c := dropFrames c k) hcut.spec hsamples]
    exact chunkFrames_dropFrames hres.samples hk
  have hdropped := samples_dropFrames hres.samples hk
  refine trimmed_of_cut hres hfits hcut hlength (fun j _ => ?_) ?_ ?_ hattached
  · rw [hsamples, hdropped, List.drop_drop, Nat.add_mul]
  · rw [hsamples, hdropped, List.length_drop]
    exact Nat.sub_le _ _
  · have hchannels := (channels_eq (c := c) (by omega)).1
    rw [hframes, ← chunkFrames_dropFrames hres.samples hk]
    show saturating 32 ((dropFrames c k).samples.length / c.channels) = _
    rw [hchannels]
    rfl

theorem trimChunkEnd_trimmed (hpos : 0 < k) (hk : k < c.chunkFrames)
    (h : trimChunkEnd c k = .ok e) : Trimmed c 0 (c.chunkFrames - k) e := by
  obtain ⟨hcut, hsamples, hframes, hattached⟩ := trimChunkEnd_cut hres hfits hpos hk h
  have hbefore : c.chunkFrames - k < c.chunkFrames := by omega
  have hlength : e.chunkFrames = c.chunkFrames - k := by
    rw [chunkFrames_congr (c := keepFrames c (c.chunkFrames - k)) hcut.spec hsamples]
    exact chunkFrames_keepFrames hres.samples hbefore
  have hkept := samples_keepFrames hres.samples hbefore
  refine trimmed_of_cut hres hfits hcut hlength (fun j hj => ?_) ?_ hframes hattached
  · have hroom : j * c.channels + c.channels ≤ (c.chunkFrames - k) * c.channels := by
      rw [← Nat.succ_mul]
      exact Nat.mul_le_mul_right _ hj
    rw [hsamples, hkept, Nat.zero_add, List.drop_take, List.take_take, min_eq_left (by omega)]
  · rw [hsamples, hkept, List.length_take]
    exact Nat.min_le_right _ _

end Cutting

theorem cutFrom_whole {c : AudioChunk S C} (hoffset : c.frameOffset < 2 ^ 64)
    (hfits : Fitting c) : CutFrom c 0 c := by
  refine ⟨rfl, by omega, (saturating_of_lt hoffset).symm, ?_, fun s hspan => ?_⟩
  · exact fun hnone => ⟨hnone, by rw [unmappedTimestamp, if_pos rfl], rfl⟩
  · refine ⟨s, hspan, ?_, .inl ⟨rfl, rfl, rfl, rfl⟩⟩
    rw [← (hfits s hspan).1]
    exact slice_whole s

theorem trimmed_whole {c : AudioChunk S C} (hres : Resident c) (hfits : Fitting c) :
    Trimmed c 0 c.chunkFrames c := by
  refine ⟨cutFrom_whole hres.offset hfits, rfl, ?_, hres, hfits⟩
  rw [List.drop_zero, List.take_of_length_le (length_audio c).le]

theorem CutFrom.comp {c d e : AudioChunk S C} {a : ℕ} (h : CutFrom c a d) (he : CutFrom d 0 e) :
    CutFrom c a e := by
  have hshorter := he.within
  have hwithin := h.within
  refine ⟨he.spec.trans h.spec, by omega, ?_, fun hnone => ?_, fun s hspan => ?_⟩
  · rw [he.offset, h.offset, saturating_add, Nat.add_zero]
  · obtain ⟨hspan, htimestamp, hend⟩ := h.unmapped hnone
    obtain ⟨hspan', htimestamp', hend'⟩ := he.unmapped hspan
    rw [unmappedTimestamp, if_pos rfl] at htimestamp'
    exact ⟨hspan', htimestamp'.trans htimestamp, hend'.trans hend⟩
  · obtain ⟨v, hv, hslice, htimes⟩ := h.mapped s hspan
    obtain ⟨w, hw, hslice', htimes'⟩ := he.mapped v hv
    refine ⟨w, hw, hslice.comp hslice', ?_⟩
    obtain ⟨_, hsame, hstart, hend⟩ | ⟨p, q, hp, hq, hstart, hend⟩ := htimes'
    · rw [hsame, hstart, hend]
      exact htimes
    · rw [slice_positionAt hslice (Nat.zero_le _)] at hp
      rw [slice_positionAt hslice (by omega), Nat.zero_add] at hq
      exact .inr ⟨p, q, hp, hq, hstart, hend⟩

end GaplessChunks

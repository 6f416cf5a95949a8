import Kithara.GaplessChunks

/-! The fade over the first frames a codec's priming leaves. The gain is a float product, taken as
a parameter of the sample type; which frames it reaches, and with which frame number, is the
model. -/
namespace GaplessFade

open GaplessChunks GaplessChunks.AudioChunk SeekGeometry

class RaisedCosine (S : Type) where
  shaped (frame total : ℕ) : S → S

variable {S C : Type}

structure SameButSamples (c e : AudioChunk S C) : Prop where
  spec : e.spec = c.spec
  timestamp : e.timestamp = c.timestamp
  endTimestamp : e.endTimestamp = c.endTimestamp
  sourceSpan : e.sourceSpan = c.sourceSpan
  frames : e.frames = c.frames
  frameOffset : e.frameOffset = c.frameOffset
  length : e.samples.length = c.samples.length

namespace SameButSamples

variable {c e : AudioChunk S C} (h : SameButSamples c e)
include h

theorem chunkFrames : e.chunkFrames = c.chunkFrames := by
  rw [AudioChunk.chunkFrames, AudioChunk.chunkFrames, h.length, h.spec]

theorem fitting (hfits : Fitting c) : Fitting e := by
  intro s hspan
  rw [h.sourceSpan] at hspan
  rw [h.chunkFrames, h.frames]
  exact hfits s hspan

theorem resident [SpanMapping.ExponentialApproach C] (hres : Resident c) : Resident e := by
  refine ⟨?_, ?_, ?_, fun s hspan => ?_⟩
  · rw [h.length]
    exact hres.samples
  · rw [h.frames]
    exact hres.frames
  · rw [h.frameOffset]
    exact hres.offset
  · rw [h.sourceSpan] at hspan
    exact hres.attached s hspan

theorem cutFrom [SpanMapping.ExponentialApproach C] {base : AudioChunk S C} {a : ℕ}
    (hcut : CutFrom base a c) : CutFrom base a e := by
  have hframes := h.chunkFrames
  refine ⟨h.spec.trans hcut.spec, ?_, h.frameOffset.trans hcut.offset, fun hnone => ?_,
    fun s hspan => ?_⟩
  · rw [hframes]
    exact hcut.within
  · rw [h.sourceSpan, h.timestamp, h.endTimestamp]
    exact hcut.unmapped hnone
  · rw [h.sourceSpan, h.timestamp, h.endTimestamp, hframes]
    exact hcut.mapped s hspan

end SameButSamples

variable [RaisedCosine S]

structure FadeInState where
  appliedFrames : ℕ
  totalFrames : ℕ
  deriving DecidableEq

namespace FadeInState

def fadeInDurationMs : ℕ := 3

def forSampleRate (sampleRate : ℕ) : FadeInState where
  totalFrames :=
    saturating 16 (min (max (saturating 64 (max sampleRate 1 * fadeInDurationMs) / 1000) 1) 65535)
  appliedFrames := 0

def isDone (f : FadeInState) : Bool := f.appliedFrames ≥ f.totalFrames

/-- Scales the complete frames of a prefix, each by its own frame number. -/
def shapePrefix (f : FadeInState) (channels prefixLen : ℕ) (samples : List S) : List S :=
  samples.mapIdx fun i sample =>
    if i < prefixLen / channels * channels then
      RaisedCosine.shaped (saturating 16 (f.appliedFrames + saturating 16 (i / channels)))
        (max f.totalFrames 1) sample
    else sample

def apply (f : FadeInState) (c : AudioChunk S C) : FadeInState × AudioChunk S C :=
  if f.isDone then (f, c)
  else if c.chunkFrames = 0 then (f, c)
  else
    let toShape := min (f.totalFrames - f.appliedFrames) (saturating 16 c.chunkFrames)
    let prefixLen := min (toShape * c.channels) c.samples.length
    ({ f with appliedFrames := saturating 16 (f.appliedFrames + toShape) },
      { c with samples := f.shapePrefix c.channels prefixLen c.samples })

end FadeInState

def applyFadeIn (fade : Option FadeInState) (c : AudioChunk S C) :
    Option FadeInState × AudioChunk S C :=
  match fade with
  | none => (none, c)
  | some state =>
    let (state, c) := state.apply c
    (if state.isDone then none else some state, c)

theorem apply_same (f : FadeInState) (c : AudioChunk S C) : SameButSamples c (f.apply c).2 := by
  by_cases hdone : f.isDone
  · rw [FadeInState.apply, if_pos hdone]
    exact ⟨rfl, rfl, rfl, rfl, rfl, rfl, rfl⟩
  · by_cases hnone : c.chunkFrames = 0
    · rw [FadeInState.apply, if_neg hdone, if_pos hnone]
      exact ⟨rfl, rfl, rfl, rfl, rfl, rfl, rfl⟩
    · rw [FadeInState.apply, if_neg hdone, if_neg hnone]
      exact ⟨rfl, rfl, rfl, rfl, rfl, rfl, by simp [FadeInState.shapePrefix]⟩

theorem applyFadeIn_same (fade : Option FadeInState) (c : AudioChunk S C) :
    SameButSamples c (applyFadeIn fade c).2 := by
  cases fade with
  | none => exact ⟨rfl, rfl, rfl, rfl, rfl, rfl, rfl⟩
  | some state => exact apply_same state c

/-- A frame at a position after the trim, under a fade of `total` frames. -/
def faded (total position : ℕ) (f : Frame S) : Frame S :=
  if position < total then
    { f with samples := f.samples.map (RaisedCosine.shaped position total) }
  else f

/-- What is left of a fade of `total` frames behind the first `passed` ones. -/
def fadeAfter (total passed : ℕ) : Option FadeInState :=
  if passed < total then some ⟨passed, total⟩ else none

theorem forSampleRate_bounds (sampleRate : ℕ) :
    (FadeInState.forSampleRate sampleRate).appliedFrames = 0 ∧
      0 < (FadeInState.forSampleRate sampleRate).totalFrames ∧
      (FadeInState.forSampleRate sampleRate).totalFrames < 2 ^ 16 := by
  refine ⟨rfl, ?_⟩
  simp only [FadeInState.forSampleRate, saturating]
  omega

theorem shapePrefix_frame {f : FadeInState} {channels shaped j : ℕ} (samples : List S)
    (hchannels : 0 < channels) (hfits : shaped * channels ≤ samples.length)
    (hword : j < shaped → f.appliedFrames + j < 2 ^ 16) :
    ((f.shapePrefix channels (min (shaped * channels) samples.length) samples).drop
        (j * channels)).take channels =
      if j < shaped then
        ((samples.drop (j * channels)).take channels).map
          (RaisedCosine.shaped (f.appliedFrames + j) (max f.totalFrames 1))
      else (samples.drop (j * channels)).take channels := by
  have hframe (hj : j < shaped) :
      saturating 16 (f.appliedFrames + saturating 16 j) = f.appliedFrames + j := by
    have hword := hword hj
    simp only [saturating]
    omega
  refine List.ext_getElem? fun k => ?_
  by_cases hk : k < channels
  · have hindex : (j * channels + k) / channels = j := by
      rw [Nat.add_comm, Nat.add_mul_div_right _ _ hchannels, Nat.div_eq_of_lt hk, Nat.zero_add]
    have hreach : j * channels + k < shaped * channels ↔ j < shaped := by
      rw [← Nat.div_lt_iff_lt_mul hchannels, hindex]
    rw [List.getElem?_take_of_lt hk, List.getElem?_drop, FadeInState.shapePrefix,
      List.getElem?_mapIdx, min_eq_left hfits, Nat.mul_div_cancel _ hchannels]
    simp only [hreach, hindex]
    split
    · next hj => rw [List.getElem?_map, List.getElem?_take_of_lt hk, List.getElem?_drop, hframe hj]
    · rw [List.getElem?_take_of_lt hk, List.getElem?_drop]
      exact Option.map_id'
  · rw [List.getElem?_eq_none (by simp; omega), List.getElem?_eq_none]
    split
    · simp
      omega
    · simp
      omega

theorem apply_fadeAfter {total passed : ℕ} (htotal : total < 2 ^ 16) (hleft : passed < total)
    {c : AudioChunk S C} (hsome : 0 < c.chunkFrames) :
    ∃ shaped, shaped ≤ c.chunkFrames ∧
      (∀ j, j < c.chunkFrames → (j < shaped ↔ passed + j < total)) ∧
      applyFadeIn (fadeAfter total passed) c = (fadeAfter total (passed + c.chunkFrames),
        { c with
          samples := FadeInState.shapePrefix ⟨passed, total⟩ c.channels
            (min (shaped * c.channels) c.samples.length) c.samples }) := by
  refine ⟨min (total - passed) (saturating 16 c.chunkFrames), ?_, ?_, ?_⟩
  · simp only [saturating]
    omega
  · intro j hj
    simp only [saturating]
    omega
  · have hdone : saturating 16 (passed + min (total - passed) (saturating 16 c.chunkFrames)) =
        min total (passed + c.chunkFrames) := by
      simp only [saturating]
      omega
    have happly : FadeInState.apply ⟨passed, total⟩ c =
        (⟨min total (passed + c.chunkFrames), total⟩, { c with
          samples := FadeInState.shapePrefix ⟨passed, total⟩ c.channels
            (min (min (total - passed) (saturating 16 c.chunkFrames) * c.channels)
              c.samples.length) c.samples }) := by
      rw [FadeInState.apply, if_neg (by simpa [FadeInState.isDone] using hleft),
        if_neg (by omega)]
      simp only [hdone]
    rw [fadeAfter, if_pos hleft, applyFadeIn, happly]
    refine Prod.ext ?_ rfl
    simp only [FadeInState.isDone, fadeAfter, decide_eq_true_eq]
    by_cases hrest : passed + c.chunkFrames < total
    · rw [if_pos hrest, min_eq_right hrest.le, if_neg (by omega)]
    · rw [if_neg hrest, if_pos (by omega)]

/-- A chunk passes a fade: each frame by its position after the trim, the rest untouched. -/
theorem applyFadeIn_fadeAfter [SpanMapping.ExponentialApproach C] {total : ℕ} (passed : ℕ)
    (htotal : total < 2 ^ 16) {c : AudioChunk S C} (hsome : 0 < c.chunkFrames) :
    ∃ e, applyFadeIn (fadeAfter total passed) c = (fadeAfter total (passed + c.chunkFrames), e) ∧
      SameButSamples c e ∧
      ∀ j, j < c.chunkFrames → frame e j = faded total (passed + j) (frame c j) := by
  by_cases hleft : passed < total
  · obtain ⟨shaped, hwithin, hreach, happly⟩ := apply_fadeAfter htotal hleft hsome
    refine ⟨_, happly, ⟨rfl, rfl, rfl, rfl, rfl, rfl, ?_⟩, fun j hj => ?_⟩
    · simp [FadeInState.shapePrefix]
    · obtain ⟨hchannels, hpos⟩ := channels_eq hsome
      have hfits := frames_within hsome hwithin
      by_cases hj' : passed + j < total
      · have hsamples := shapePrefix_frame (f := ⟨passed, total⟩) (j := j) c.samples
          (hchannels ▸ hpos) hfits (fun _ => show passed + j < 2 ^ 16 by omega)
        rw [if_pos ((hreach j hj).mpr hj'), max_eq_left (show 1 ≤ total by omega)] at hsamples
        rw [faded, if_pos hj']
        exact congrArg (Frame.mk _ _) hsamples
      · have hout : ¬ j < shaped := fun hj'' => hj' ((hreach j hj).mp hj'')
        have hsamples := shapePrefix_frame (f := ⟨passed, total⟩) (j := j) c.samples
          (hchannels ▸ hpos) hfits (fun hj'' => absurd hj'' hout)
        rw [if_neg hout] at hsamples
        rw [faded, if_neg hj']
        exact congrArg (Frame.mk _ _) hsamples
  · refine ⟨c, ?_, ⟨rfl, rfl, rfl, rfl, rfl, rfl, rfl⟩, fun j hj => ?_⟩
    · rw [fadeAfter, fadeAfter, if_neg hleft, if_neg (by omega), applyFadeIn]
    · rw [faded, if_neg (by omega)]

end GaplessFade

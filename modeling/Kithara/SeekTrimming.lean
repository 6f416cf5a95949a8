import Kithara.SeekGeometry
import Mathlib.Order.Bounds.Basic
import Mathlib.Data.Rat.Cast.Order

/-! The head of a decoded stream after a seek: packets before the target are dropped whole, the
packet the target falls in loses its frames before the target, and everything after it passes. -/
namespace SeekTrimming

open CheckedArithmetic SeekGeometry
open SpanClock (nanosPerSecond)

/-- What a seek wants of the first frame: the one nearest to a target, or the last one that does
not pass it, so that a prefix is kept. -/
inductive SeekTrim where
  | nearest (target : ℕ)
  | prefixOf (target : ℕ)

def SeekTrim.target : SeekTrim → ℕ
  | .nearest target => target
  | .prefixOf target => target

structure Decoder where
  spec : AudioSpec
  pendingSeekTarget : Option SeekTrim
  frameOffset : ℕ
  timeline : Option (ℕ × ℕ)
  timelineGapFrames : ℕ

variable {S : Type}

/-- A decoded packet: interleaved samples, their frames, and the time of the first. -/
structure Pcm (S : Type) where
  buf : List S
  frames : ℕ
  pts : ℕ

def copyWithin (buf : List S) (first last : ℕ) : Option (List S) :=
  if first ≤ last ∧ last ≤ buf.length then
    some ((buf.take last).drop first ++ buf.drop (last - first))
  else none

/-- The head of a packet cut off, and the decoder's clock moved to the frame after it. -/
def cutHead (d : Decoder) (c : Pcm S) (trim : ℕ) : Except DecodeError (Decoder × Pcm S) :=
  let trimSamples := saturating 64 (trim * d.spec.channels)
  let totalSamples := saturating 64 (c.frames * d.spec.channels)
  if trimSamples < totalSamples ∧ trimSamples ≤ c.buf.length then do
    let moved ← okOr (copyWithin c.buf trimSamples totalSamples) .panicked
    let origin ← (frameAt d.spec.sampleRate c.pts).mapError .signal
    let position ← okOr (checkedAdd 64 origin trim) (.invalidData "trimmed PCM position overflow")
    let finish ← (durationFor d.spec.sampleRate position).mapError .signal
    let start ← (durationFor d.spec.sampleRate origin).mapError .signal
    let elapsed ← okOr (checkedSub finish start)
      (.invalidData "trimmed PCM clock moved backward")
    let pts ← okOr (addDuration c.pts elapsed) (.invalidData "trimmed PCM timestamp overflow")
    return ({ d with frameOffset := position, timeline := some (pts, position) },
      { buf := moved.take (totalSamples - trimSamples), frames := c.frames - trim, pts })
  else return (d, c)

def wantedTrim (sampleRate : ℕ+) (pts : ℕ) : SeekTrim → Except DecodeError ℕ
  | .nearest target => .ok (framesToTrim pts target sampleRate)
  | .prefixOf target => framesToTrimPrefix pts target sampleRate

/-- Whether the packet is to be dropped whole, and what is left of it otherwise. -/
def trimPcmPrefix (d : Decoder) (c : Pcm S) (intent : SeekTrim) :
    Except DecodeError (Bool × Decoder × Pcm S) := do
  let wanted ← wantedTrim d.spec.sampleRate c.pts intent
  let trim := min wanted c.frames
  if c.frames ≤ trim then return (true, d, c)
  else if 0 < trim then do
    let (d, c) ← cutHead d c trim
    return (false, d, c)
  else return (false, d, c)

def decodedEnd (d : Decoder) (c : Pcm S) : ℕ :=
  min (c.pts + (durationFor d.spec.sampleRate c.frames).toOption.getD (2 ^ 64 - 1)) maxDuration

def skipsWhole (d : Decoder) (c : Pcm S) (frameEnd : ℕ) : SeekTrim → Bool
  | .nearest target =>
    (c.frames = 0 ∧ frameEnd ≤ target) ∨ (0 < c.frames ∧ decodedEnd d c ≤ target)
  | .prefixOf target => c.frames = 0 ∧ frameEnd ≤ target

def settle : Bool × Decoder × Pcm S → Bool × Decoder × Pcm S
  | (true, d, c) => (true, d, c)
  | (false, d, c) =>
    if 0 < c.frames then (false, { d with pendingSeekTarget := none }, c) else (false, d, c)

def trimSeekChunk (d : Decoder) (c : Pcm S) (frameEnd : ℕ) :
    Except DecodeError (Bool × Decoder × Pcm S) :=
  match d.pendingSeekTarget with
  | none => return (false, d, c)
  | some intent =>
    if skipsWhole d c frameEnd intent then return (true, d, c)
    else do
      let trimmed ←
        if 0 < c.frames ∧ c.pts < intent.target then trimPcmPrefix d c intent
        else pure (false, d, c)
      return settle trimmed

structure Emitted (S : Type) where
  samples : List S
  frames : ℕ
  frameOffset : ℕ
  timestamp : ℕ

/-- A chunk is stamped from the anchor of the timeline; a forward gap anchors it anew. -/
def buildChunk (d : Decoder) (c : Pcm S) : Decoder × Emitted S :=
  let timestampFrame := (frameAt d.spec.sampleRate c.pts).toOption.getD (2 ^ 64 - 1)
  let anchored : (ℕ × ℕ) × ℕ × ℕ :=
    match d.timeline with
    | some anchor =>
      if timestampFrame ≤ d.frameOffset then (anchor, d.frameOffset, d.timelineGapFrames)
      else ((c.pts, timestampFrame), timestampFrame,
        saturating 64 (d.timelineGapFrames + (timestampFrame - d.frameOffset)))
    | none => ((c.pts, timestampFrame), timestampFrame, d.timelineGapFrames)
  let clock (frame : ℕ) : ℕ := (durationFor d.spec.sampleRate frame).toOption.getD maxDuration
  let elapsed := clock anchored.2.1 - clock anchored.1.2
  ({ d with
      timeline := some anchored.1
      frameOffset := saturating 64 (anchored.2.1 + c.frames)
      timelineGapFrames := anchored.2.2 },
    { samples := c.buf
      frames := c.frames
      frameOffset := anchored.2.1
      timestamp := min (anchored.1.1 + elapsed) maxDuration })

/-- A packet of the decoded stream: its samples are interleaved frames, and it carries the end the
container gives it. -/
structure Packet (S : Type) (channels : ℕ) where
  frames : ℕ
  fits : frames < 2 ^ 32
  samples : List S
  interleaved : samples.length = frames * channels
  frameEnd : ℕ

variable {channels : ℕ}

def Packet.pcm (rate : ℕ+) (first : ℕ) (p : Packet S channels) : Pcm S :=
  { buf := p.samples, frames := p.frames, pts := stamp rate first }

/-- The decoder over a stream of packets from a frame on, and the chunks it emits. -/
def decodeAll (d : Decoder) :
    ℕ → List (Packet S channels) → Except DecodeError (Decoder × List (Emitted S))
  | _, [] => .ok (d, [])
  | first, p :: packets => do
    let (dropped, d, c) ← trimSeekChunk d (p.pcm d.spec.sampleRate first) p.frameEnd
    if dropped ∨ c.frames = 0 then decodeAll d (first + p.frames) packets
    else do
      let (d, chunk) := buildChunk d c
      let (d, chunks) ← decodeAll d (first + p.frames) packets
      return (d, chunk :: chunks)

/-- Within half a frame of the target, and the nanosecond a stamp may be off. -/
def Near (rate : ℕ+) (target frame : ℕ) : Prop :=
  |(frame : ℚ) / (rate : ℕ) - target / nanosPerSecond| ≤
    1 / (2 * (rate : ℕ)) + 1 / nanosPerSecond

def Last (rate : ℕ+) (target frame : ℕ) : Prop :=
  IsGreatest {k : ℕ | (k : ℚ) / (rate : ℕ) ≤ target / nanosPerSecond} frame

def SeekTrim.Met (rate : ℕ+) (frame : ℕ) : SeekTrim → Prop
  | .nearest target => Near rate target frame
  | .prefixOf target => Last rate target frame

def SeekTrim.Ahead (rate : ℕ+) (frame : ℕ) : SeekTrim → Prop
  | .nearest target => frame * nanosPerSecond ≤ target * rate + rate + halfSecond
  | .prefixOf target => frame * nanosPerSecond ≤ target * rate

variable {rate : ℕ+} {d : Decoder} {p : Packet S channels} {intent : SeekTrim}
  {first frame target trim : ℕ}

theorem quotient_sub (frame target : ℕ) (rate : ℕ+) :
    (frame : ℚ) / (rate : ℕ) - target / nanosPerSecond =
      (frame * nanosPerSecond - target * (rate : ℕ)) / ((rate : ℕ) * nanosPerSecond) := by
  have hrate : ((rate : ℕ) : ℚ) ≠ 0 := Nat.cast_ne_zero.mpr rate.ne_zero
  have hsecond : (nanosPerSecond : ℚ) ≠ 0 := Nat.cast_ne_zero.mpr (by decide)
  field_simp

theorem near_of_bounds (hlow : target * rate ≤ frame * nanosPerSecond + halfSecond)
    (hhigh : frame * nanosPerSecond ≤ target * rate + rate + halfSecond) :
    Near rate target frame := by
  have hpos : (0 : ℚ) < (rate : ℕ) * nanosPerSecond := by
    exact_mod_cast Nat.mul_pos rate.pos (by decide : 0 < nanosPerSecond)
  have hbound : (1 : ℚ) / (2 * (rate : ℕ)) + 1 / nanosPerSecond =
      (halfSecond + (rate : ℕ)) / ((rate : ℕ) * nanosPerSecond) := by
    have hrate : ((rate : ℕ) : ℚ) ≠ 0 := Nat.cast_ne_zero.mpr rate.ne_zero
    have hsecond : (nanosPerSecond : ℚ) = 2 * halfSecond := by
      norm_num [nanosPerSecond, halfSecond]
    have hhalf : (halfSecond : ℚ) ≠ 0 := Nat.cast_ne_zero.mpr (by decide)
    rw [hsecond]
    field_simp
  rw [Near, quotient_sub, hbound, abs_div, abs_of_pos hpos]
  apply div_le_div_of_nonneg_right _ hpos.le
  rw [abs_le]
  have hlow : (target : ℚ) * (rate : ℕ) ≤ frame * nanosPerSecond + halfSecond := by
    exact_mod_cast hlow
  have hhigh : (frame : ℚ) * nanosPerSecond ≤ target * (rate : ℕ) + (rate : ℕ) + halfSecond := by
    exact_mod_cast hhigh
  have hrate : (0 : ℚ) ≤ (rate : ℕ) := Nat.cast_nonneg _
  constructor
  · linarith
  · linarith

theorem time_le_iff : (frame : ℚ) / (rate : ℕ) ≤ target / nanosPerSecond ↔
    frame * nanosPerSecond ≤ target * rate := by
  have hrate : (0 : ℚ) < (rate : ℕ) := Nat.cast_pos.mpr rate.pos
  have hsecond : (0 : ℚ) < nanosPerSecond := Nat.cast_pos.mpr (by decide)
  rw [div_le_div_iff₀ hrate hsecond]
  exact_mod_cast Iff.rfl

theorem last_of_bounds (hle : frame * nanosPerSecond ≤ target * rate)
    (hlt : target * rate < (frame + 1) * nanosPerSecond) : Last rate target frame := by
  constructor
  · exact time_le_iff.mpr hle
  · intro k hk
    have hk := time_le_iff.mp hk
    apply Nat.le_of_lt_succ
    exact Nat.lt_of_mul_lt_mul_right (Nat.lt_of_le_of_lt hk hlt)

theorem stamp_bounds (hfine : Fine rate) (frame : ℕ) :
    stamp rate frame * rate ≤ frame * nanosPerSecond ∧
      frame * nanosPerSecond + Nat.gcd nanosPerSecond rate ≤ stamp rate frame * rate + rate ∧
      frame * nanosPerSecond ≤ stamp rate frame * rate + halfSecond := by
  have hsum : stamp rate frame * rate + frame * nanosPerSecond % rate = frame * nanosPerSecond :=
    GridStamps.stamp_add_mod
  have hlost : frame * (2 * halfSecond) % rate + Nat.gcd (2 * halfSecond) rate ≤ rate :=
    GridStamps.lost_le rate.pos
  have hsecond : 2 * halfSecond = nanosPerSecond := rfl
  rw [hsecond] at hlost
  rw [Fine] at hfine
  refine ⟨?_, ?_, ?_⟩
  · omega
  · omega
  · omega

theorem nearest_bounds (hfine : Fine rate) (h : stamp rate first < target)
    (htrim : trim = ((target - stamp rate first) * rate + halfSecond) / nanosPerSecond) :
    target * rate ≤ (first + trim) * nanosPerSecond + halfSecond ∧
      (first + trim) * nanosPerSecond ≤ target * rate + 2 * halfSecond ∧
      (first + trim) * nanosPerSecond + Nat.gcd nanosPerSecond rate ≤
        target * rate + rate + halfSecond := by
  obtain ⟨hbelow, hshared, habove⟩ := stamp_bounds hfine first
  have hdistance : stamp rate first * rate + (target - stamp rate first) * rate =
      target * rate := by
    rw [← Nat.add_mul, Nat.add_sub_cancel' h.le]
  have hfloor : trim * nanosPerSecond ≤ (target - stamp rate first) * rate + halfSecond := by
    rw [htrim]
    exact Nat.div_mul_le_self _ _
  have hceil : (target - stamp rate first) * rate + halfSecond < (trim + 1) * nanosPerSecond := by
    rw [htrim]
    have hpos : 0 < nanosPerSecond := by decide
    exact (Nat.div_lt_iff_lt_mul hpos).mp (Nat.lt_succ_self _)
  have hsecond : nanosPerSecond = 2 * halfSecond := rfl
  rw [Nat.succ_mul] at hceil
  rw [Nat.add_mul]
  refine ⟨?_, ?_, ?_⟩
  · omega
  · omega
  · omega

theorem nearest_le_target (hfine : Fine rate) (hpos : 0 < target)
    (hbound : frame * nanosPerSecond ≤ target * rate + 2 * halfSecond)
    (hshared : frame * nanosPerSecond + Nat.gcd nanosPerSecond rate ≤
      target * rate + rate + halfSecond) : frame ≤ target := by
  have hsecond : nanosPerSecond = 2 * halfSecond := rfl
  rcases Nat.eq_or_lt_of_le (fine_le hfine) with hrate | hrate
  · rw [hrate, Nat.gcd_self] at hshared
    have hlt : frame * nanosPerSecond < (target + 1) * nanosPerSecond := by
      have hhalf : 0 < halfSecond := by decide
      rw [Nat.succ_mul]
      omega
    exact Nat.le_of_lt_succ (Nat.lt_of_mul_lt_mul_right hlt)
  · have hshort : target * rate + target ≤ target * nanosPerSecond := by
      rw [← Nat.mul_succ]
      exact Nat.mul_le_mul_left target hrate
    have hlt : frame * nanosPerSecond < (target + 1) * nanosPerSecond := by
      rw [Nat.succ_mul]
      omega
    exact Nat.le_of_lt_succ (Nat.lt_of_mul_lt_mul_right hlt)

theorem cutHead_eq (hrate : d.spec.sampleRate = rate) (hchannels : d.spec.channels = channels)
    (hsome : 0 < channels) (hfew : channels < 2 ^ 16) (hfine : Fine rate)
    (hposition : first + trim < 2 ^ 64) (htrim : trim < p.frames) :
    cutHead d (p.pcm rate first) trim =
      if stamp rate (first + trim) < 2 ^ 64 then
        .ok ({ d with
                frameOffset := first + trim
                timeline := some (stamp rate (first + trim), first + trim) },
          { buf := p.samples.drop (trim * channels)
            frames := p.frames - trim
            pts := stamp rate (first + trim) })
      else .error (.signal (.durationOverflow (first + trim) rate)) := by
  have hfits := p.fits
  have hlength := p.interleaved
  have hall : p.frames * channels < 2 ^ 64 - 1 := by
    calc p.frames * channels ≤ 2 ^ 32 * 2 ^ 16 := Nat.mul_le_mul hfits.le hfew.le
      _ < 2 ^ 64 - 1 := by decide
  have hless : trim * channels < p.frames * channels := Nat.mul_lt_mul_of_pos_right htrim hsome
  have hcopy : copyWithin p.samples (trim * channels) (p.frames * channels) =
      some (p.samples.drop (trim * channels) ++
        p.samples.drop (p.frames * channels - trim * channels)) := by
    rw [copyWithin, if_pos ⟨hless.le, hlength.ge⟩, ← hlength, List.take_length]
  have hkept : (p.samples.drop (trim * channels) ++
      p.samples.drop (p.frames * channels - trim * channels)).take
        (p.frames * channels - trim * channels) = p.samples.drop (trim * channels) := by
    rw [List.take_append_of_le_length (by rw [List.length_drop]; omega),
      List.take_of_length_le (by rw [List.length_drop]; omega)]
  have hpts : stamp rate first ≤ stamp rate (first + trim) :=
    GridStamps.stamp_le_stamp (Nat.le_add_right _ _)
  rw [cutHead]
  simp only [hrate, hchannels, Packet.pcm, saturating]
  rw [Nat.min_eq_left (a := trim * channels) (by omega),
    Nat.min_eq_left (a := p.frames * channels) (by omega),
    if_pos ⟨hless, by omega⟩, hcopy, okOr_some, ok_bind, frameAt_stamp hfine (by omega),
    mapError_ok, ok_bind, checkedAdd_eq_some.mpr ⟨rfl, hposition⟩, okOr_some, ok_bind,
    durationFor_eq hposition]
  split
  · rename_i hstamp
    have hlong : stamp rate (first + trim) ≤ maxDuration :=
      Nat.le_trans hstamp.le (by decide)
    have hback : stamp rate first + (stamp rate (first + trim) - stamp rate first) =
      stamp rate (first + trim) := Nat.add_sub_cancel' hpts
    rw [mapError_ok, ok_bind, durationFor_eq (by omega), if_pos (by omega), mapError_ok, ok_bind,
      checkedSub_eq_some.mpr hback, okOr_some, ok_bind, addDuration_eq_some.mpr ⟨hback, hlong⟩,
      okOr_some, ok_bind, hkept]
    rfl
  · rw [mapError_error, error_bind]

structure Seeks (d : Decoder) (channels : ℕ) (intent : SeekTrim) : Prop where
  pending : d.pendingSeekTarget = some intent
  fine : Fine d.spec.sampleRate
  channels_eq : d.spec.channels = channels
  some_channel : 0 < channels
  few_channels : channels < 2 ^ 16
  target_lt : intent.target < 2 ^ 64

/-- The decoder once a frame has been landed on. Its clock moves when a head was cut off. -/
def Decoder.landed (d : Decoder) (first trim : ℕ) : Decoder :=
  if trim = 0 then { d with pendingSeekTarget := none }
  else { d with
    pendingSeekTarget := none
    frameOffset := first + trim
    timeline := some (stamp d.spec.sampleRate (first + trim), first + trim) }

def Packet.rest (p : Packet S channels) (rate : ℕ+) (first trim : ℕ) : Pcm S :=
  { buf := p.samples.drop (trim * channels)
    frames := p.frames - trim
    pts := stamp rate (first + trim) }

inductive Step (d : Decoder) (intent : SeekTrim) (first : ℕ) (p : Packet S channels) :
    Except DecodeError (Bool × Decoder × Pcm S) → Prop
  | skipped (dropped : Bool) (hnone : dropped = true ∨ p.frames = 0)
      (hahead : intent.Ahead d.spec.sampleRate (first + p.frames)) :
      Step d intent first p (.ok (dropped, d, p.pcm d.spec.sampleRate first))
  | landed (trim : ℕ) (htrim : trim < p.frames)
      (hmet : intent.Met d.spec.sampleRate (first + trim)) :
      Step d intent first p
        (.ok (false, d.landed first trim, p.rest d.spec.sampleRate first trim))
  | refused (target trim : ℕ) (hnearest : intent = .nearest target) (hpos : 0 < trim)
      (htrim : trim < p.frames) (hmet : intent.Met d.spec.sampleRate (first + trim))
      (hlong : 2 ^ 64 ≤ stamp d.spec.sampleRate (first + trim)) :
      Step d intent first p
        (.error (.signal (.durationOverflow (first + trim) d.spec.sampleRate)))

theorem rest_zero (p : Packet S channels) (rate : ℕ+) (first : ℕ) :
    p.rest rate first 0 = p.pcm rate first := by
  rw [Packet.rest, Packet.pcm, Nat.zero_mul, List.drop_zero, Nat.sub_zero, Nat.add_zero]

theorem settle_kept {c : Pcm S} (h : 0 < c.frames) :
    settle (false, d, c) = (false, { d with pendingSeekTarget := none }, c) := if_pos h

theorem trimSeekChunk_kept (hs : Seeks d channels intent)
    (hskip : skipsWhole d (p.pcm d.spec.sampleRate first) p.frameEnd intent = false)
    (hpos : 0 < p.frames) (hpts : intent.target ≤ stamp d.spec.sampleRate first) :
    trimSeekChunk d (p.pcm d.spec.sampleRate first) p.frameEnd =
      .ok (false, d.landed first 0, p.rest d.spec.sampleRate first 0) := by
  have hlate : ¬(0 < (p.pcm d.spec.sampleRate first).frames ∧
      (p.pcm d.spec.sampleRate first).pts < intent.target) :=
    fun h => absurd h.2 (Nat.not_lt.mpr hpts)
  rw [trimSeekChunk, hs.pending, rest_zero, Decoder.landed, if_pos rfl]
  dsimp only
  rw [hskip, if_neg Bool.false_ne_true, if_neg hlate]
  exact congrArg Except.ok (settle_kept hpos)

theorem trimSeekChunk_cut (hs : Seeks d channels intent)
    (hskip : skipsWhole d (p.pcm d.spec.sampleRate first) p.frameEnd intent = false)
    (hpos : 0 < p.frames) (hpts : stamp d.spec.sampleRate first < intent.target) :
    trimSeekChunk d (p.pcm d.spec.sampleRate first) p.frameEnd =
      trimPcmPrefix d (p.pcm d.spec.sampleRate first) intent >>= fun trimmed =>
        .ok (settle trimmed) := by
  rw [trimSeekChunk, hs.pending]
  dsimp only
  rw [hskip, if_neg Bool.false_ne_true, if_pos ⟨hpos, hpts⟩]
  rfl

theorem trimSeekChunk_empty (hs : Seeks d channels intent) (hnone : p.frames = 0) :
    ∃ dropped, trimSeekChunk d (p.pcm d.spec.sampleRate first) p.frameEnd =
      .ok (dropped, d, p.pcm d.spec.sampleRate first) := by
  have hsome : ¬0 < (p.pcm d.spec.sampleRate first).frames := by
    show ¬0 < p.frames
    omega
  rw [trimSeekChunk, hs.pending]
  dsimp only
  cases skipsWhole d (p.pcm d.spec.sampleRate first) p.frameEnd intent with
  | true => exact ⟨true, rfl⟩
  | false =>
    rw [if_neg Bool.false_ne_true, if_neg (fun h => hsome h.1)]
    exact ⟨false, congrArg Except.ok (if_neg hsome)⟩

theorem trimPcmPrefix_of_wanted {c : Pcm S} {wanted : ℕ}
    (h : wantedTrim d.spec.sampleRate c.pts intent = .ok wanted) :
    trimPcmPrefix d c intent =
      if c.frames ≤ wanted then .ok (true, d, c)
      else if 0 < wanted then cutHead d c wanted >>= fun cut => .ok (false, cut.1, cut.2)
      else .ok (false, d, c) := by
  rw [trimPcmPrefix, h, ok_bind]
  by_cases hall : c.frames ≤ wanted
  · rw [Nat.min_eq_right hall, if_pos (Nat.le_refl _), if_pos hall]
    rfl
  · rw [Nat.min_eq_left (by omega), if_neg hall, if_neg hall]
    rfl

theorem trimSeekChunk_landed (hs : Seeks d channels intent) {wanted : ℕ}
    (hskip : skipsWhole d (p.pcm d.spec.sampleRate first) p.frameEnd intent = false)
    (hpts : stamp d.spec.sampleRate first < intent.target)
    (h : wantedTrim d.spec.sampleRate (stamp d.spec.sampleRate first) intent = .ok wanted)
    (hless : wanted < p.frames) (hposition : first + wanted < 2 ^ 64) :
    trimSeekChunk d (p.pcm d.spec.sampleRate first) p.frameEnd =
      if wanted = 0 ∨ stamp d.spec.sampleRate (first + wanted) < 2 ^ 64 then
        .ok (false, d.landed first wanted, p.rest d.spec.sampleRate first wanted)
      else .error (.signal (.durationOverflow (first + wanted) d.spec.sampleRate)) := by
  have hpos : 0 < p.frames := by omega
  have hmore : ¬(p.pcm d.spec.sampleRate first).frames ≤ wanted := Nat.not_le.mpr hless
  rw [trimSeekChunk_cut hs hskip hpos hpts, trimPcmPrefix_of_wanted h, if_neg hmore]
  rcases Nat.eq_zero_or_pos wanted with rfl | hwanted
  · rw [if_neg (Nat.lt_irrefl 0), ok_bind, settle_kept hpos, if_pos (.inl rfl), rest_zero,
      Decoder.landed, if_pos rfl]
  · rw [if_pos hwanted, cutHead_eq rfl hs.channels_eq hs.some_channel hs.few_channels hs.fine
      hposition hless]
    by_cases hstamp : stamp d.spec.sampleRate (first + wanted) < 2 ^ 64
    · rw [if_pos hstamp, ok_bind, ok_bind, settle_kept (by show 0 < p.frames - wanted; omega),
        if_pos (.inr hstamp), Decoder.landed, if_neg hwanted.ne']
      rfl
    · rw [if_neg hstamp, error_bind, error_bind,
        if_neg (fun h => h.elim hwanted.ne' hstamp)]

theorem trimSeekChunk_dropped (hs : Seeks d channels intent) {wanted : ℕ}
    (hskip : skipsWhole d (p.pcm d.spec.sampleRate first) p.frameEnd intent = false)
    (hpos : 0 < p.frames) (hpts : stamp d.spec.sampleRate first < intent.target)
    (h : wantedTrim d.spec.sampleRate (stamp d.spec.sampleRate first) intent = .ok wanted)
    (hall : p.frames ≤ wanted) :
    trimSeekChunk d (p.pcm d.spec.sampleRate first) p.frameEnd =
      .ok (true, d, p.pcm d.spec.sampleRate first) := by
  have hdropped : (p.pcm d.spec.sampleRate first).frames ≤ wanted := hall
  rw [trimSeekChunk_cut hs hskip hpos hpts, trimPcmPrefix_of_wanted h, if_pos hdropped]
  rfl

theorem trimSeekChunk_skipped (hs : Seeks d channels intent)
    (hskip : skipsWhole d (p.pcm d.spec.sampleRate first) p.frameEnd intent = true) :
    trimSeekChunk d (p.pcm d.spec.sampleRate first) p.frameEnd =
      .ok (true, d, p.pcm d.spec.sampleRate first) := by
  rw [trimSeekChunk, hs.pending]
  dsimp only
  rw [hskip, if_pos rfl]
  rfl

theorem ahead_of_decodedEnd (hfine : Fine d.spec.sampleRate) (htarget : target < 2 ^ 64)
    (h : decodedEnd d (p.pcm d.spec.sampleRate first) ≤ target) :
    (SeekTrim.nearest target).Ahead d.spec.sampleRate (first + p.frames) := by
  have hfits := p.fits
  have hframes : stamp d.spec.sampleRate p.frames < 2 ^ 64 := by
    apply Nat.lt_of_le_of_lt (Nat.div_le_self _ _)
    show p.frames * nanosPerSecond < 2 ^ 64
    simp only [nanosPerSecond]
    omega
  have hlong : target < maxDuration := Nat.lt_trans htarget (by decide)
  have hend : stamp d.spec.sampleRate first + stamp d.spec.sampleRate p.frames ≤ target := by
    rw [decodedEnd] at h
    simp only [Packet.pcm] at h
    rw [durationFor_eq (by omega), if_pos hframes] at h
    rcases Nat.le_total (stamp d.spec.sampleRate first + stamp d.spec.sampleRate p.frames)
      maxDuration with hle | hle
    · exact Nat.le_trans (Nat.le_of_eq (Nat.min_eq_left hle).symm) h
    · have hmin := Nat.le_trans (Nat.le_of_eq (Nat.min_eq_right hle).symm) h
      omega
  have hrates := Nat.mul_le_mul_right (d.spec.sampleRate : ℕ) hend
  obtain ⟨-, hfirst, -⟩ := stamp_bounds hfine first
  obtain ⟨-, -, hrest⟩ := stamp_bounds hfine p.frames
  rw [Nat.add_mul] at hrates
  show (first + p.frames) * nanosPerSecond ≤ _
  rw [Nat.add_mul]
  omega

theorem step_nearest (hs : Seeks d channels (.nearest target))
    (hahead : (SeekTrim.nearest target).Ahead d.spec.sampleRate first) :
    Step d (.nearest target) first p
      (trimSeekChunk d (p.pcm d.spec.sampleRate first) p.frameEnd) := by
  rcases Nat.eq_zero_or_pos p.frames with hnone | hpos
  · obtain ⟨dropped, h⟩ := trimSeekChunk_empty hs hnone
    rw [h]
    refine .skipped dropped (.inr hnone) ?_
    rwa [hnone, Nat.add_zero]
  · cases hskip : skipsWhole d (p.pcm d.spec.sampleRate first) p.frameEnd (.nearest target) with
    | true =>
      rw [trimSeekChunk_skipped hs hskip]
      refine .skipped true (.inl rfl) (ahead_of_decodedEnd hs.fine hs.target_lt ?_)
      rcases of_decide_eq_true hskip with h | h
      · exact absurd h.1 hpos.ne'
      · exact h.2
    | false =>
      rcases Nat.lt_or_ge (stamp d.spec.sampleRate first) target with hpts | hpts
      · have hwanted : wantedTrim d.spec.sampleRate (stamp d.spec.sampleRate first)
            (.nearest target) = .ok (((target - stamp d.spec.sampleRate first) *
              d.spec.sampleRate + halfSecond) / nanosPerSecond) :=
          congrArg Except.ok (framesToTrim_eq (fine_le hs.fine) hs.target_lt hpts)
        obtain ⟨hlow, hhigh, hshared⟩ := nearest_bounds hs.fine hpts rfl
        generalize ((target - stamp d.spec.sampleRate first) * d.spec.sampleRate + halfSecond) /
          nanosPerSecond = wanted at hwanted hlow hhigh hshared
        have hposition : first + wanted ≤ target :=
          nearest_le_target hs.fine (Nat.zero_lt_of_lt hpts) hhigh hshared
        have htarget : target < 2 ^ 64 := hs.target_lt
        rcases Nat.lt_or_ge wanted p.frames with hless | hall
        · have hnear : Near d.spec.sampleRate target (first + wanted) :=
            near_of_bounds hlow (by omega)
          rw [trimSeekChunk_landed hs hskip hpts hwanted hless (by omega)]
          split
          · exact .landed wanted hless hnear
          · rename_i hlong
            exact .refused target wanted rfl (by omega) hless hnear (by omega)
        · rw [trimSeekChunk_dropped hs hskip hpos hpts hwanted hall]
          refine .skipped true (.inl rfl) ?_
          have hless := Nat.mul_le_mul_right nanosPerSecond (Nat.add_le_add_left hall first)
          show (first + p.frames) * nanosPerSecond ≤ _
          omega
      · rw [trimSeekChunk_kept hs hskip hpos hpts]
        refine .landed 0 hpos (near_of_bounds ?_ hahead)
        have hbelow := (stamp_bounds hs.fine first).1
        have hrates := Nat.mul_le_mul_right (d.spec.sampleRate : ℕ) hpts
        rw [Nat.add_zero]
        omega

theorem step_prefix (hs : Seeks d channels (.prefixOf target))
    (hahead : (SeekTrim.prefixOf target).Ahead d.spec.sampleRate first) :
    Step d (.prefixOf target) first p
      (trimSeekChunk d (p.pcm d.spec.sampleRate first) p.frameEnd) := by
  have hahead : first * nanosPerSecond ≤ target * d.spec.sampleRate := hahead
  rcases Nat.eq_zero_or_pos p.frames with hnone | hpos
  · obtain ⟨dropped, h⟩ := trimSeekChunk_empty hs hnone
    rw [h]
    refine .skipped dropped (.inr hnone) ?_
    rwa [hnone, Nat.add_zero]
  · have hskip : skipsWhole d (p.pcm d.spec.sampleRate first) p.frameEnd (.prefixOf target) =
        false := decide_eq_false fun h => hpos.ne' h.1
    rcases Nat.lt_or_ge (stamp d.spec.sampleRate first) target with hpts | hpts
    · have htarget : target < 2 ^ 64 := hs.target_lt
      have hwanted := framesToTrimPrefix_eq hs.fine htarget hpts
      have hfirst : first ≤ target * d.spec.sampleRate / nanosPerSecond :=
        (Nat.le_div_iff_mul_le (by decide)).mpr hahead
      obtain ⟨wanted, hsum⟩ := Nat.exists_eq_add_of_le hfirst
      have hfloor : (first + wanted) * nanosPerSecond ≤ target * d.spec.sampleRate := by
        rw [← hsum]
        exact Nat.div_mul_le_self _ _
      have hceil : target * d.spec.sampleRate < (first + wanted + 1) * nanosPerSecond := by
        rw [← hsum]
        exact (Nat.div_lt_iff_lt_mul (by decide)).mp (Nat.lt_succ_self _)
      have hposition : first + wanted ≤ target := by
        apply Nat.le_of_mul_le_mul_right (c := nanosPerSecond) _ (by decide)
        exact Nat.le_trans hfloor (Nat.mul_le_mul_left target (fine_le hs.fine))
      rw [hsum, Nat.add_sub_cancel_left] at hwanted
      rcases Nat.lt_or_ge wanted p.frames with hless | hall
      · have hstamp : stamp d.spec.sampleRate (first + wanted) ≤ target := by
          apply Nat.div_le_of_le_mul
          rw [Nat.mul_comm (d.spec.sampleRate : ℕ) target]
          exact hfloor
        rw [trimSeekChunk_landed hs hskip hpts hwanted hless (by omega), if_pos (.inr (by omega))]
        exact .landed wanted hless (last_of_bounds hfloor hceil)
      · rw [trimSeekChunk_dropped hs hskip hpos hpts hwanted hall]
        refine .skipped true (.inl rfl) ?_
        exact Nat.le_trans
          (Nat.mul_le_mul_right nanosPerSecond (Nat.add_le_add_left hall first)) hfloor
    · rw [trimSeekChunk_kept hs hskip hpos hpts]
      refine .landed 0 hpos (last_of_bounds hahead ?_)
      have hbelow := (stamp_bounds hs.fine first).1
      have hrates := Nat.mul_le_mul_right (d.spec.sampleRate : ℕ) hpts
      have hsecond : 0 < nanosPerSecond := by decide
      rw [Nat.add_zero, Nat.succ_mul]
      omega

theorem step_cases (hs : Seeks d channels intent) (hahead : intent.Ahead d.spec.sampleRate first) :
    Step d intent first p (trimSeekChunk d (p.pcm d.spec.sampleRate first) p.frameEnd) := by
  cases intent with
  | nearest target => exact step_nearest hs hahead
  | prefixOf target => exact step_prefix hs hahead

def frameCount (packets : List (Packet S channels)) : ℕ := (packets.map Packet.frames).sum

/-- The chunks of packets that pass whole: each frame once, and nothing for an empty packet. -/
def wholeSamples (packets : List (Packet S channels)) : List (List S) :=
  (packets.filter fun p => 0 < p.frames).map Packet.samples

inductive SeekRun (d : Decoder) (intent : SeekTrim) (first : ℕ) (packets : List (Packet S channels)) :
    Except DecodeError (Decoder × List (Emitted S)) → Prop
  /-- No packet has reached the target, and the seek is still pending. -/
  | waiting (hahead : intent.Ahead d.spec.sampleRate (first + frameCount packets)) :
      SeekRun d intent first packets (.ok (d, []))
  /-- Whole packets are dropped, then a prefix of one; every later frame is emitted once. -/
  | landed (skipped later : List (Packet S channels)) (p : Packet S channels) (trim : ℕ)
      (d' : Decoder) (chunk : Emitted S) (chunks : List (Emitted S))
      (hpackets : packets = skipped ++ p :: later) (htrim : trim < p.frames)
      (hmet : intent.Met d.spec.sampleRate (first + frameCount skipped + trim))
      (hstep : trimSeekChunk d (p.pcm d.spec.sampleRate (first + frameCount skipped)) p.frameEnd =
        .ok (false, d.landed (first + frameCount skipped) trim,
          p.rest d.spec.sampleRate (first + frameCount skipped) trim))
      (hpending : d'.pendingSeekTarget = none)
      (hchunk : chunk.samples = p.samples.drop (trim * channels))
      (hchunks : chunks.map Emitted.samples = wholeSamples later) :
      SeekRun d intent first packets (.ok (d', chunk :: chunks))
  /-- The frame nearest to the target lies beyond the last time that can be stamped. -/
  | refused (target frame : ℕ) (hnearest : intent = .nearest target)
      (hmet : intent.Met d.spec.sampleRate frame) (hin : frame < first + frameCount packets)
      (hlong : 2 ^ 64 ≤ stamp d.spec.sampleRate frame) :
      SeekRun d intent first packets
        (.error (.signal (.durationOverflow frame d.spec.sampleRate)))

theorem decodeAll_settled (hpending : d.pendingSeekTarget = none) (first : ℕ)
    (packets : List (Packet S channels)) :
    ∃ d' chunks, decodeAll d first packets = .ok (d', chunks) ∧ d'.pendingSeekTarget = none ∧
      chunks.map Emitted.samples = wholeSamples packets := by
  induction packets generalizing d first with
  | nil => exact ⟨d, [], rfl, hpending, rfl⟩
  | cons p packets ih =>
    have hstep : trimSeekChunk d (p.pcm d.spec.sampleRate first) p.frameEnd =
        .ok (false, d, p.pcm d.spec.sampleRate first) := by
      rw [trimSeekChunk, hpending]
      rfl
    rw [decodeAll, hstep, ok_bind]
    dsimp only
    by_cases hnone : p.frames = 0
    · obtain ⟨d', chunks, hrun, hdone, hsamples⟩ := ih hpending (first + p.frames)
      refine ⟨d', chunks, ?_, hdone, ?_⟩
      · rw [if_pos (.inr hnone)]
        exact hrun
      · rw [hsamples, wholeSamples, wholeSamples, List.filter_cons_of_neg (by simp [hnone])]
    · have hpass : ¬((false : Bool) = true ∨ (p.pcm d.spec.sampleRate first).frames = 0) := by
        rintro (h | h)
        · cases h
        · exact hnone h
      have hbuilt : (buildChunk d (p.pcm d.spec.sampleRate first)).1.pendingSeekTarget = none :=
        hpending
      obtain ⟨d', chunks, hrun, hdone, hsamples⟩ := ih hbuilt (first + p.frames)
      refine ⟨d', (buildChunk d (p.pcm d.spec.sampleRate first)).2 :: chunks, ?_, hdone, ?_⟩
      · rw [if_neg hpass, hrun]
        rfl
      · rw [List.map_cons, hsamples, wholeSamples, wholeSamples,
          List.filter_cons_of_pos (by simpa using Nat.pos_of_ne_zero hnone)]
        rfl

theorem landed_pending (d : Decoder) (first trim : ℕ) :
    (d.landed first trim).pendingSeekTarget = none := by
  rw [Decoder.landed]
  split
  · rfl
  · rfl

theorem seekRun_dropped {result : Except DecodeError (Decoder × List (Emitted S))}
    {packets : List (Packet S channels)} (h : SeekRun d intent (first + p.frames) packets result) :
    SeekRun d intent first (p :: packets) result := by
  have hcount (rest : List (Packet S channels)) :
      first + frameCount (p :: rest) = first + p.frames + frameCount rest := by
    rw [frameCount, List.map_cons, List.sum_cons, ← Nat.add_assoc, frameCount]
  cases h with
  | waiting hahead =>
    rw [← hcount] at hahead
    exact .waiting hahead
  | landed skipped later q trim d' chunk chunks hpackets htrim hmet hstep hpending hchunk hchunks =>
    rw [← hcount] at hmet hstep
    exact .landed (p :: skipped) later q trim d' chunk chunks (congrArg (p :: ·) hpackets) htrim
      hmet hstep hpending hchunk hchunks
  | refused target frame hnearest hmet hin hlong =>
    rw [← hcount] at hin
    exact .refused target frame hnearest hmet hin hlong

theorem seekRun (packets : List (Packet S channels)) (hs : Seeks d channels intent)
    (hahead : intent.Ahead d.spec.sampleRate first) :
    SeekRun d intent first packets (decodeAll d first packets) := by
  induction packets generalizing first with
  | nil => exact .waiting hahead
  | cons p packets ih =>
    rw [decodeAll]
    have hstep := step_cases (p := p) hs hahead
    generalize hresult : trimSeekChunk d (p.pcm d.spec.sampleRate first) p.frameEnd = result
      at hstep
    cases hstep with
    | skipped dropped hnone hnext =>
      have hpass : dropped = true ∨ (p.pcm d.spec.sampleRate first).frames = 0 := hnone
      rw [ok_bind]
      dsimp only
      rw [if_pos hpass]
      exact seekRun_dropped (ih hnext)
    | landed trim htrim hmet =>
      have hkept : (p.rest d.spec.sampleRate first trim).frames ≠ 0 := by
        show p.frames - trim ≠ 0
        omega
      have hbuilt : (buildChunk (d.landed first trim)
          (p.rest d.spec.sampleRate first trim)).1.pendingSeekTarget = none :=
        landed_pending d first trim
      obtain ⟨d', chunks, hrun, hdone, hsamples⟩ :=
        decodeAll_settled hbuilt (first + p.frames) packets
      rw [ok_bind]
      dsimp only
      rw [if_neg (by simp [hkept]), hrun]
      exact .landed [] packets p trim d' _ chunks rfl htrim hmet hresult hdone rfl hsamples
    | refused target trim hnearest hpos htrim hmet hlong =>
      rw [error_bind]
      refine .refused target _ hnearest hmet ?_ hlong
      rw [frameCount, List.map_cons, List.sum_cons]
      omega

theorem ahead_of_start (h : (first : ℚ) / (rate : ℕ) ≤ intent.target / nanosPerSecond) :
    intent.Ahead rate first := by
  have hstart := time_le_iff.mp h
  cases intent with
  | nearest target => exact Nat.le_trans hstart (by rw [Nat.add_assoc]; exact Nat.le_add_right _ _)
  | prefixOf target => exact hstart

/-- After a seek into a stream that starts by the target, the decoder emits a suffix of it, from
the frame the seek asked for. A nearest seek is refused only when that frame's own time does not
fit. -/
theorem seek_emits_suffix (d : Decoder) (intent : SeekTrim) (channels first : ℕ)
    (packets : List (Packet S channels)) (hs : Seeks d channels intent)
    (hstart : (first : ℚ) / (d.spec.sampleRate : ℕ) ≤ intent.target / nanosPerSecond) :
    SeekRun d intent first packets (decodeAll d first packets) :=
  seekRun packets hs (ahead_of_start hstart)

def seeking (sampleRate : ℕ+) (intent : SeekTrim) : Decoder where
  spec := ⟨sampleRate, 1⟩
  pendingSeekTarget := some intent
  frameOffset := 0
  timeline := none
  timelineGapFrames := 0

def silence (frames : ℕ) (fits : frames < 2 ^ 32) : Packet Unit 1 where
  frames
  fits
  samples := List.replicate frames ()
  interleaved := by rw [List.length_replicate, Nat.mul_one]
  frameEnd := 0

theorem seek_emits_suffix_millisecond :
    SeekRun (seeking 44100 (.nearest 1000000)) (.nearest 1000000) 0
      [silence 32 (by decide), silence 32 (by decide)]
      (decodeAll (seeking 44100 (.nearest 1000000)) 0
        [silence 32 (by decide), silence 32 (by decide)]) :=
  seek_emits_suffix _ _ 1 0 _ ⟨rfl, by decide, rfl, by decide, by decide, by decide⟩ (by
    rw [Nat.cast_zero, zero_div]
    exact div_nonneg (Nat.cast_nonneg _) (Nat.cast_nonneg _))

/-- At 32 kHz the frame nearest to the last nanosecond cannot be stamped, and at 3 GHz a stamp
names another frame than its own. -/
theorem seek_overflows_and_misnames :
    (¬ ∀ (d : Decoder) (intent : SeekTrim) (first : ℕ) (packets : List (Packet Unit 1)),
      d.pendingSeekTarget = some intent → d.spec.channels = 1 → intent.target < 2 ^ 64 →
      first * nanosPerSecond ≤ intent.target * d.spec.sampleRate →
      ∃ d' chunks, decodeAll d first packets = .ok (d', chunks)) ∧
    ¬ ∀ (d d' : Decoder) (intent : SeekTrim) (first : ℕ) (p : Packet Unit 1) (c : Pcm Unit),
      d.pendingSeekTarget = some intent → d.spec.channels = 1 → intent.target < 2 ^ 64 →
      first * nanosPerSecond ≤ intent.target * d.spec.sampleRate →
      trimSeekChunk d (p.pcm d.spec.sampleRate first) p.frameEnd = .ok (false, d', c) →
      c.frames < p.frames → d'.frameOffset = first + (p.frames - c.frames) := by
  constructor
  · intro h
    obtain ⟨d', chunks, hrun⟩ := h (seeking 32000 (.nearest (2 ^ 64 - 1))) _ 590295810358700
      [silence 10 (by decide)] rfl rfl (by decide) (by decide)
    have hrefused : decodeAll (seeking 32000 (.nearest (2 ^ 64 - 1))) 590295810358700
        [silence 10 (by decide)] =
          .error (.signal (.durationOverflow 590295810358706 32000)) := by rfl
    rw [hrefused] at hrun
    cases hrun
  · intro h
    have hstep : trimSeekChunk (seeking 3000000000 (.nearest 2))
        ((silence 10 (by decide)).pcm 3000000000 2) 0 =
          .ok (false, ⟨⟨3000000000, 1⟩, none, 6, some (2, 6), 0⟩,
            ⟨List.replicate 4 (), 4, 2⟩) := by rfl
    have hmisnamed : 6 = 2 + (10 - 4) := h _ _ (.nearest 2) 2 (silence 10 (by decide)) _ rfl rfl
      (by decide) (by decide) hstep (by decide)
    exact absurd hmisnamed (by decide)

end SeekTrimming

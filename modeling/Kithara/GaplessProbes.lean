import Kithara.CheckedArithmetic
import Kithara.Mp4Scanner

/-! The two readings of how many frames an MP4 file trims: one stops at the first source it can
prove, the other reads the file to its end. -/
namespace Mp4Scan

open CheckedArithmetic

structure GaplessInfo where
  leadingFrames : ℕ
  trailingFrames : ℕ
  deriving DecidableEq, Repr

inductive DecodeError where
  | io
  | parse (what : String) (error : Mp4MetadataError)
  deriving DecidableEq, Repr

def u128Max : ℕ := 2 ^ 128 - 1

def scaleFrames (value numerator denominator : ℕ) : Option ℕ :=
  if denominator = 0 then none
  else
    let scaled := min (min (value * numerator) u128Max + denominator / 2) u128Max / denominator
    if scaled < 2 ^ 64 then some scaled else none

def deriveFromEdit (edit : Mp4EditListEntry) (media : Mp4MediaTiming)
    (sampleRate movieTimescale : ℕ) : Option GaplessInfo := do
  if edit.mediaRate ≠ 2 ^ 16 then none
  else
    let mediaTime ← if edit.mediaTime < 0 then none else some edit.mediaTime.toNat
    let leading ← scaleFrames mediaTime sampleRate media.timescale
    let valid ← scaleFrames edit.segmentDuration sampleRate movieTimescale
    let total ← scaleFrames media.duration sampleRate media.timescale
    let trailing ← checkedSub total (← checkedAdd 64 leading valid)
    if leading = 0 ∧ trailing = 0 then none else some ⟨leading, trailing⟩

structure TrackState where
  edit : Option Mp4EditListEntry
  media : Option Mp4MediaTiming
  sampleRate : Option ℕ

structure GaplessProbe where
  current : Option TrackState
  elstDerived : Option GaplessInfo
  itunsmpb : Option GaplessInfo
  movieTimescale : Option ℕ

def deriveFromTrack (track : TrackState) (movieTimescale : Option ℕ) : Option GaplessInfo := do
  deriveFromEdit (← track.edit) (← track.media) (← track.sampleRate) (← movieTimescale)

def singleEdit (entries : List Mp4EditListEntry) : Option Mp4EditListEntry :=
  match entries with
  | [edit] => some edit
  | _ => none

namespace GaplessProbe

def empty : GaplessProbe := ⟨none, none, none, none⟩

def finishTrack (probe : GaplessProbe) : ControlFlow × GaplessProbe :=
  match probe.current with
  | none => (.continue, probe)
  | some track =>
    let probe := { probe with current := none }
    match deriveFromTrack track probe.movieTimescale with
    | some info => (.break, { probe with elstDerived := some info })
    | none => (.continue, probe)

def visit : Visitor GaplessProbe := fun event probe =>
  match event with
  | .itunSmpb info =>
    if info.leadingFrames = 0 ∧ info.trailingFrames = 0 then (.continue, probe)
    else (.break, { probe with itunsmpb := some ⟨info.leadingFrames, info.trailingFrames⟩ })
  | .movieTimescale timescale => (.continue, { probe with movieTimescale := some timescale })
  | .trackBegin => (.continue, { probe with current := some ⟨none, none, none⟩ })
  | .trackEditList entries =>
    (.continue, { probe with
      current := probe.current.map fun track => { track with edit := singleEdit entries } })
  | .trackEnd => probe.finishTrack
  | .trackMediaTiming timing =>
    (.continue, { probe with
      current := probe.current.map fun track => { track with media := some timing } })
  | .trackSampleRate rate =>
    (.continue, { probe with
      current := probe.current.map fun track => { track with sampleRate := some rate } })
  | .trackCodec _ | .trackId _ => (.continue, probe)

end GaplessProbe

def probeMp4Gapless (data : Bytes) (pos : ℕ) : Except DecodeError (Option GaplessInfo) :=
  match scanMp4 data GaplessProbe.visit pos GaplessProbe.empty with
  | .ok probe => .ok (probe.elstDerived.or probe.itunsmpb)
  | .error .io => .error .io
  | .error (.invalidData _) => .ok none

structure Presentation where
  trackId : ℕ
  mediaOrigin : Option ℕ
  mediaEnd : Option ℕ
  gapless : Option GaplessInfo
  deriving DecidableEq, Repr

inductive Edit where
  | identity
  | offset (edit : Mp4EditListEntry)
  | unsupported

structure Track where
  id : Option ℕ
  media : Option Mp4MediaTiming
  sampleRate : Option ℕ
  edit : Edit

/-- In nanoseconds. -/
def duration (ticks timescale : ℕ) : Option ℕ := do
  let nanos ← checkedMul 128 ticks 1000000000
  if timescale = 0 then none
  else if nanos / timescale < 2 ^ 64 then some (nanos / timescale) else none

def nonzero (nanos : Option ℕ) : Option ℕ := nanos.filter fun nanos => nanos ≠ 0

def Track.presentation (track : Track) (movieTimescale : Option ℕ) : Option Presentation := do
  let trackId ← track.id
  let media ← track.media
  let sampleRate ← track.sampleRate
  let gapless :=
    match track.edit with
    | .offset edit => movieTimescale.bind fun scale => deriveFromEdit edit media sampleRate scale
    | .identity | .unsupported => none
  let (mediaOrigin, mediaEnd) :=
    match track.edit with
    | .identity => (some 0, nonzero (duration media.duration media.timescale))
    | .offset edit =>
      ((if edit.mediaTime < 0 then none else some edit.mediaTime.toNat).bind fun time =>
          duration time media.timescale,
        nonzero (movieTimescale.bind fun scale => duration edit.segmentDuration scale))
    | .unsupported => (none, none)
  return ⟨trackId, mediaOrigin, mediaEnd, gapless⟩

/-- The kind of edit a list is. -/
def Edit.ofList (edits : List Mp4EditListEntry) : Edit :=
  match edits with
  | [] => .identity
  | [edit] => if 0 ≤ edit.mediaTime ∧ edit.mediaRate = 2 ^ 16 then .offset edit else .unsupported
  | _ => .unsupported

structure Presentations where
  movieTimescale : Option ℕ
  track : Option Track
  result : List Presentation
  itunsmpb : Option GaplessInfo

namespace Presentations

def empty : Presentations := ⟨none, none, [], none⟩

def visit : Visitor Presentations := fun event s =>
  (.continue, match event with
    | .movieTimescale scale => { s with movieTimescale := some scale }
    | .trackBegin => { s with track := some ⟨none, none, none, .identity⟩ }
    | .trackId id => { s with track := s.track.map fun track => { track with id := some id } }
    | .trackMediaTiming media =>
      { s with track := s.track.map fun track => { track with media := some media } }
    | .trackSampleRate rate =>
      { s with track := s.track.map fun track => { track with sampleRate := some rate } }
    | .itunSmpb info =>
      if info.leadingFrames ≠ 0 ∨ info.trailingFrames ≠ 0
      then { s with itunsmpb := some ⟨info.leadingFrames, info.trailingFrames⟩ }
      else s
    | .trackEditList edits =>
      { s with track := s.track.map fun track => { track with edit := Edit.ofList edits } }
    | .trackEnd =>
      match s.track with
      | none => s
      | some track =>
        { s with
          track := none
          result := s.result ++ (track.presentation s.movieTimescale).toList }
    | .trackCodec _ => s)

end Presentations

def probePresentations (data : Bytes) (pos : ℕ) : Except DecodeError (List Presentation) :=
  match scanMp4 data Presentations.visit pos Presentations.empty with
  | .error e => .error (.parse "mp4 presentation" e)
  | .ok s =>
    .ok (match s.result with
      | [presentation] => [{ presentation with gapless := presentation.gapless.or s.itunsmpb }]
      | result => result)

end Mp4Scan

import Kithara.ByteReaders
import Kithara.RangeRuns

/-! The durable bytes of an analysis publication: one track snapshot, and for an unsettled pass the
state that continues it. The waveform and beat sections have codecs of their own. -/
namespace AnalysisBlobs

open ByteReaders RangeRuns

abbrev Bytes := List UInt8

inductive BlobError where
  | version (found expected : UInt32)
  | fingerprint
  | tooLarge
  | corrupt
  deriving DecidableEq, Repr

abbrev BlobReader := Reader BlobError

abbrev NonZeroU32 := {n : UInt32 // n ≠ 0}

abbrev NonZeroU64 := {n : UInt64 // n ≠ 0}

def writeBool (value : Bool) : Bytes := [if value then 1 else 0]

def writeU32 (value : UInt32) : Bytes := littleEndian 4 value.toNat

def writeU64 (value : UInt64) : Bytes := littleEndian 8 value.toNat

/-- An oversized length is clamped to one that always fails to read back. -/
def writeLen (len : ℕ) : Bytes := writeU64 (UInt64.ofNat (min len (2 ^ 64 - 1)))

def writeOptionalU64 (value : Option UInt64) : Bytes :=
  writeBool value.isSome ++ writeU64 (value.getD 0)

def writeSection (content : Bytes) : Except BlobError Bytes :=
  if content.length < 2 ^ 64 then .ok (writeU64 (UInt64.ofNat content.length) ++ content)
  else .error .tooLarge

def utf8 (value : String) : Bytes := value.toByteArray.data.toList

def writeStr (value : String) : Except BlobError Bytes :=
  if (utf8 value).length < 2 ^ 32 then
    .ok (writeU32 (UInt32.ofNat (utf8 value).length) ++ utf8 value)
  else .error .tooLarge

def readBool : BlobReader Bool := do
  let value ← readNat .corrupt 1
  check .corrupt (value < 2)
  pure (value == 1)

def readU32 : BlobReader UInt32 := UInt32.ofNat <$> readNat .corrupt 4

def readU64 : BlobReader UInt64 := UInt64.ofNat <$> readNat .corrupt 8

def readLen : BlobReader ℕ := UInt64.toNat <$> readU64

/-- A count whose fixed-size items cannot fit in what is left is refused. -/
def readCount (itemBytes : ℕ) : BlobReader ℕ := do
  let count ← readLen
  let left ← remaining
  check .corrupt (min (count * itemBytes) (2 ^ 64 - 1) ≤ left)
  pure count

def readOptionalU64 : BlobReader (Option UInt64) := do
  let present ← readBool
  let value ← readU64
  pure (if present then some value else none)

def readSection : BlobReader Bytes := do
  let len ← readLen
  take .corrupt len

def ofUtf8 (raw : Bytes) : Except BlobError String :=
  match String.fromUTF8? ⟨raw.toArray⟩ with
  | some value => .ok value
  | none => .error .corrupt

def readStr : BlobReader String := do
  let len ← readU32
  let raw ← take .corrupt len.toNat
  ofResult (ofUtf8 raw)

def nonZeroU32 (value : UInt32) : Except BlobError NonZeroU32 :=
  if h : value ≠ 0 then .ok ⟨value, h⟩ else .error .corrupt

def nonZeroU64 (value : UInt64) : Except BlobError NonZeroU64 :=
  if h : value ≠ 0 then .ok ⟨value, h⟩ else .error .corrupt

@[ext] structure Coverage where
  set : RangeSet ℕ
  fits : ∀ r ∈ set.runs, r.2 < 2 ^ 64

namespace Coverage

def empty : Coverage := ⟨RangeSet.empty, fun _ hr => nomatch hr⟩

def insert (c : Coverage) (start stop : ℕ) (h : stop < 2 ^ 64) : Coverage :=
  ⟨c.set.insert start stop, by
    simp only [RangeSet.insert]
    split
    · exact insertRun_bounded h c.fits
    · exact c.fits⟩

/-- Whether the span sits inside one run. -/
def covers (c : Coverage) (start stop : ℕ) : Bool :=
  decide (stop ≤ start) || c.set.runs.any fun r => decide (r.1 ≤ start) && decide (stop ≤ r.2)

/-- A span inside one run is a span every frame of which is covered. -/
theorem covers_iff {c : Coverage} {start stop : ℕ} :
    c.covers start stop = true ↔ ∀ frame, start ≤ frame → frame < stop → frame ∈ c.set := by
  by_cases hempty : stop ≤ start
  · have hnone : ∀ frame, start ≤ frame → ¬ frame < stop := fun _ h1 h2 => by omega
    simp only [covers, hempty, decide_true, Bool.true_or, true_iff]
    exact fun frame h1 h2 => absurd h2 (hnone frame h1)
  · have hone := held_iff_one_run c.set.canonical (not_le.mp hempty)
    simp only [covers, hempty, decide_false, Bool.false_or, List.any_eq_true, Bool.and_eq_true,
      decide_eq_true_eq]
    exact hone.symm

end Coverage

def writeRun (run : ℕ × ℕ) : Bytes :=
  writeU64 (UInt64.ofNat run.1) ++ writeU64 (UInt64.ofNat (run.2 - run.1))

def writeCoverage (coverage : Coverage) : Bytes :=
  writeLen coverage.set.runs.length ++ coverage.set.runs.flatMap writeRun

def readRuns : ℕ → Option ℕ → Coverage → BlobReader Coverage
  | 0, _, coverage => pure coverage
  | n + 1, previousEnd, coverage => do
    let start ← readU64
    let frames ← readU64
    let stop := min (start.toNat + frames.toNat) (2 ^ 64 - 1)
    if frames = 0 ∨ stop - start.toNat ≠ frames.toNat ∨
        previousEnd.any (fun last => decide (start.toNat ≤ last)) then
      throw .corrupt
    else readRuns n (some stop) (coverage.insert start.toNat stop (by omega))

def readCoverage : BlobReader Coverage := do
  let count ← readCount 16
  readRuns count none Coverage.empty

structure AnalysisFingerprint where
  beat : Option String
  waveform : Option String
  deriving DecidableEq

inductive BeatState where
  | provisional
  | final
  deriving DecidableEq

structure BeatSnapshot (B : Type) where
  artifact : B
  state : BeatState
  unanalysed : List (UInt64 × UInt64)

structure Duration where
  secs : UInt64
  nanos : UInt32
  bounded : nanos.toNat < 1000000000

/-- One publication of an analysis pass. -/
structure TrackAnalysis (W B : Type) where
  fingerprint : AnalysisFingerprint
  token : String
  sourceSampleRate : NonZeroU32
  mediaOrigin : Option Duration
  beat : Option (BeatSnapshot B)
  extent : Option UInt64
  waveform : Option W
  coverage : Coverage
  settled : Bool
  revision : UInt64

/-- An artifact's own byte format: a version header, then a body it reads back. -/
structure SectionCodec (α : Type) where
  writeTo : α → Bytes
  tryFrom : Bytes → Except BlobError α
  versioned : ∀ x, 4 ≤ (writeTo x).length
  roundTrip : ∀ x, tryFrom (writeTo x) = .ok x

/-- The section formats a publication is written with; of the two resume sections only whether they
decode is used here. -/
structure Sections (W B : Type) where
  waveform : SectionCodec W
  beat : SectionCodec B
  waveformResume : Bytes → Except BlobError Unit
  beatResume : Bytes → Except BlobError Unit

variable {W B : Type} (S : Sections W B)

/-- `[start, end)` as the frame it starts at and the frames it holds. -/
def frames (range : UInt64 × UInt64) : UInt64 :=
  UInt64.ofNat (range.2.toNat - range.1.toNat)

def writeRange (range : UInt64 × UInt64) : Bytes := writeU64 range.1 ++ writeU64 (frames range)

def writeRanges (ranges : List (UInt64 × UInt64)) : Bytes :=
  writeLen ranges.length ++ ranges.flatMap writeRange

def readRange : BlobReader (UInt64 × UInt64) := do
  let start ← readU64
  let frames ← readU64
  pure (start, UInt64.ofNat (min (start.toNat + frames.toNat) (2 ^ 64 - 1)))

def readRanges : BlobReader (List (UInt64 × UInt64)) := do
  let count ← readCount 16
  readMany readRange count

def trackAnalysisBytesVersion : UInt32 := 0x4b410008

def analysisProgressBytesVersion : UInt32 := 0x4b415001

def resumeVersion : UInt32 := 0x4b415203

namespace TrackAnalysis

def writeOrigin (origin : Option Duration) : Bytes :=
  writeBool origin.isSome ++ writeU64 (origin.elim 0 Duration.secs) ++
    writeU32 (origin.elim 0 Duration.nanos)

def writeTo (analysis : TrackAnalysis W B) : Except BlobError Bytes := do
  let token ← writeStr analysis.token
  let waveformTag ← writeStr (analysis.fingerprint.waveform.getD "")
  let waveform ← writeSection (analysis.waveform.elim [] S.waveform.writeTo)
  let beatTag ← writeStr (analysis.fingerprint.beat.getD "")
  let beat ← writeSection (analysis.beat.elim [] fun beat => S.beat.writeTo beat.artifact)
  pure (writeU32 trackAnalysisBytesVersion ++ token ++ writeU32 analysis.sourceSampleRate.val ++
    writeOrigin analysis.mediaOrigin ++ writeOptionalU64 analysis.extent ++
    writeU64 analysis.revision ++ writeBool analysis.settled ++ writeCoverage analysis.coverage ++
    waveformTag ++ waveform ++ beatTag ++ beat ++
    writeBool (analysis.beat.any fun beat => beat.state = .final) ++
    writeRanges (analysis.beat.elim [] BeatSnapshot.unanalysed))

end TrackAnalysis

structure RawTrackSnapshot where
  token : String
  sourceSampleRate : NonZeroU32
  mediaOrigin : Option Duration
  extent : Option UInt64
  revision : UInt64
  settled : Bool
  coverage : Coverage
  waveformTag : String
  waveformBytes : Bytes
  beatTag : String
  gridBytes : Bytes
  finalGrid : Bool
  unanalysed : List (UInt64 × UInt64)

def ofOrigin (hasOrigin : Bool) (secs : UInt64) (nanos : UInt32) :
    Except BlobError (Option Duration) :=
  if h : nanos.toNat < 1000000000 then
    if hasOrigin then .ok (some ⟨secs, nanos, h⟩)
    else if secs ≠ 0 ∨ nanos ≠ 0 then .error .corrupt
    else .ok none
  else .error .corrupt

def readSourceAxis : BlobReader (NonZeroU32 × Option Duration) := do
  let rate ← readU32
  let sourceSampleRate ← ofResult (nonZeroU32 rate)
  let hasOrigin ← readBool
  let originSecs ← readU64
  let originNanos ← readU32
  let origin ← ofResult (ofOrigin hasOrigin originSecs originNanos)
  pure (sourceSampleRate, origin)

namespace RawTrackSnapshot

def read : BlobReader RawTrackSnapshot := do
  let token ← readStr
  let (sourceSampleRate, mediaOrigin) ← readSourceAxis
  let extent ← readOptionalU64
  let revision ← readU64
  let settled ← readBool
  let coverage ← readCoverage
  let waveformTag ← readStr
  let waveformBytes ← readSection
  let beatTag ← readStr
  let gridBytes ← readSection
  let finalGrid ← readBool
  let unanalysed ← readRanges
  pure { token, sourceSampleRate, mediaOrigin, extent, revision, settled, coverage, waveformTag,
         waveformBytes, beatTag, gridBytes, finalGrid, unanalysed }

/-- Which stored artifacts the active configuration made; none at all is a stale blob, unless it
holds none and no tag either. -/
def matchingArtifacts (raw : RawTrackSnapshot) (active : AnalysisFingerprint) :
    Except BlobError (Bool × Bool) :=
  let waveformOk := active.waveform.any fun tag => decide (raw.waveformTag = tag)
  let beatOk := active.beat.any fun tag => decide (raw.beatTag = tag)
  let empty := active.waveform.isNone && active.beat.isNone && decide (raw.waveformTag = "") &&
    decide (raw.beatTag = "") && raw.waveformBytes.isEmpty && raw.gridBytes.isEmpty &&
    !raw.finalGrid && raw.unanalysed.isEmpty
  if !waveformOk && !beatOk && !empty then .error .fingerprint else .ok (waveformOk, beatOk)

/-- A stored section under a matching tag. -/
def artifact {α : Type} (codec : SectionCodec α) (ok : Bool) (stored : Bytes) :
    Except BlobError (Option α) :=
  if ok && !stored.isEmpty then (codec.tryFrom stored).map some |>.mapError fun _ => .corrupt
  else .ok none

def intoAnalysis (raw : RawTrackSnapshot) (active : AnalysisFingerprint) :
    Except BlobError (TrackAnalysis W B) := do
  let (waveformOk, beatOk) ← raw.matchingArtifacts active
  let waveform ← artifact S.waveform waveformOk raw.waveformBytes
  let grid ← artifact S.beat beatOk raw.gridBytes
  let state : BeatState := if raw.finalGrid then .final else .provisional
  pure {
    token := raw.token, revision := raw.revision, sourceSampleRate := raw.sourceSampleRate
    mediaOrigin := raw.mediaOrigin, extent := raw.extent, settled := raw.settled
    coverage := raw.coverage
    fingerprint := ⟨if beatOk then some raw.beatTag else none,
      if waveformOk then some raw.waveformTag else none⟩
    waveform := waveform
    beat := grid.map fun grid => ⟨grid, state, raw.unanalysed⟩ }

end RawTrackSnapshot

def TrackAnalysis.read : BlobReader RawTrackSnapshot := do
  let version ← readU32
  check (.version version trackAnalysisBytesVersion) (version = trackAnalysisBytesVersion)
  RawTrackSnapshot.read

def TrackAnalysis.tryFrom (bytes : Bytes) (active : AnalysisFingerprint) :
    Except BlobError (TrackAnalysis W B) := do
  let raw ← whole .corrupt TrackAnalysis.read bytes
  raw.intoAnalysis S active

def decodeSection (decode : Bytes → Except BlobError Unit) : BlobReader Bool := do
  let bytes ← readSection
  if bytes.isEmpty then pure false
  else
    ofResult (decode bytes)
    pure true

/-- The chunk size of the captured pass and which analyzers it captured. -/
def decodeResume (bytes : Bytes) : Except BlobError (NonZeroU64 × (Bool × Bool)) :=
  whole .corrupt (do
    let version ← readU32
    check (.version version resumeVersion) (version = resumeVersion)
    let raw ← readU64
    let chunkFrames ← ofResult (nonZeroU64 raw)
    let waveform ← decodeSection S.waveformResume
    let beat ← decodeSection S.beatResume
    pure (chunkFrames, (waveform, beat))) bytes

/-- Captured analyzer state: bytes that decode to the chunk size and shape kept beside them. -/
@[ext] structure AnalysisResume where
  bytes : Bytes
  chunkFrames : NonZeroU64
  shape : Bool × Bool
  decodes : decodeResume S bytes = .ok (chunkFrames, shape)

namespace AnalysisResume

variable {S}

def tryFrom (bytes : Bytes) : Except BlobError (AnalysisResume S) :=
  match h : decodeResume S bytes with
  | .ok (chunkFrames, shape) => .ok ⟨bytes, chunkFrames, shape, h⟩
  | .error e => .error e

end AnalysisResume

/-- One publication and, until it is settled, the state needed to continue it. -/
@[ext] structure AnalysisProgress where
  resume : Option (AnalysisResume S)
  analysis : TrackAnalysis W B
  resumable : resume.isSome = !analysis.settled

namespace AnalysisProgress

variable {S}

def validateResume (progress : AnalysisProgress S) : Except BlobError Unit :=
  if progress.resume.isSome = !progress.analysis.settled then .ok () else .error .corrupt

@[simp] theorem validateResume_ok (progress : AnalysisProgress S) :
    progress.validateResume = .ok () := if_pos progress.resumable

def resumeBytes (progress : AnalysisProgress S) : Bytes :=
  progress.resume.elim [] AnalysisResume.bytes

def writeTo (progress : AnalysisProgress S) : Except BlobError Bytes := do
  let analysis ← progress.analysis.writeTo S
  pure (writeU32 analysisProgressBytesVersion ++ writeLen analysis.length ++ analysis ++
    writeLen progress.resumeBytes.length ++ progress.resumeBytes)

def ofResume (bytes : Bytes) : Except BlobError (Option (AnalysisResume S)) :=
  if bytes.isEmpty then .ok none else (AnalysisResume.tryFrom bytes).map some

/-- Only a settled publication comes without the state that continues it. -/
def new (analysis : TrackAnalysis W B) (resume : Option (AnalysisResume S)) :
    Except BlobError (AnalysisProgress S) :=
  if h : resume.isSome = !analysis.settled then .ok ⟨resume, analysis, h⟩ else .error .corrupt

def read (active : AnalysisFingerprint) :
    BlobReader (TrackAnalysis W B × Option (AnalysisResume S)) := do
  let version ← readU32
  check (.version version analysisProgressBytesVersion) (version = analysisProgressBytesVersion)
  let stored ← readSection
  let analysis ← ofResult (TrackAnalysis.tryFrom S stored active)
  let state ← readSection
  let resume ← ofResult (ofResume state)
  pure (analysis, resume)

def tryFrom (bytes : Bytes) (active : AnalysisFingerprint) :
    Except BlobError (AnalysisProgress S) := do
  let (analysis, resume) ← whole .corrupt (read active) bytes
  new analysis resume

end AnalysisProgress

end AnalysisBlobs

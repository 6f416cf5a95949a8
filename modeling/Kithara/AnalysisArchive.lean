import Kithara.AnalysisBlobs
import Kithara.CheckedArithmetic

/-! The indexed analysis file: a fixed header, one byte a chunk of source frames, and the latest
publication. An update rewrites the payload, then the bytes of newly covered chunks, then the
header. -/
namespace AnalysisArchive

open ByteReaders AnalysisBlobs
open CheckedArithmetic (divCeil)

variable {W B : Type} {S : Sections W B}

inductive AnalysisFileError where
  | unknownExtent
  | config
  | staleRevision (stored incoming : UInt64)
  | coverageRegression (chunk : ℕ)
  | fingerprintTooLong (len max : ℕ)
  | tooLarge
  | version (found expected : UInt32)
  | corrupt
  | payload (error : BlobError)
  deriving DecidableEq, Repr

def ensure (fault : AnalysisFileError) (p : Prop) [Decidable p] : Except AnalysisFileError Unit :=
  if p then .ok () else .error fault

def maxPrealloc : ℕ := 4096

def fingerprintMax : ℕ := 1024

def indexEntryLen : ℕ := 1

def headerFieldsLen : ℕ := 88

def headerLen : ℕ := headerFieldsLen + 2 * (4 + fingerprintMax)

def validateTag (value : Option String) : Except AnalysisFileError Unit :=
  let len := (value.elim [] utf8).length
  if value = some "" then .error .config
  else if len > fingerprintMax then .error (.fingerprintTooLong len fingerprintMax)
  else .ok ()

def validateFingerprint (fingerprint : AnalysisFingerprint) : Except AnalysisFileError Unit := do
  validateTag fingerprint.waveform
  validateTag fingerprint.beat

structure Layout where
  chunkCount : ℕ
  indexOffset : ℕ
  payloadOffset : ℕ
  deriving DecidableEq

/-- The offsets are far below the range of `u64`: the index holds no more than `maxPrealloc`
entries. -/
def layoutOf (extent : UInt64) (chunkFrames : NonZeroU64) : Except AnalysisFileError Layout :=
  let chunkCount := divCeil extent.toNat chunkFrames.val.toNat
  if chunkCount > maxPrealloc then .error .tooLarge
  else .ok ⟨chunkCount, headerLen, headerLen + chunkCount * indexEntryLen⟩

/-- Immutable identity of one file, with a layout its fixed header and index can hold. -/
@[ext] structure AnalysisFileSpec where
  fingerprint : AnalysisFingerprint
  sourceSampleRate : NonZeroU32
  chunkFrames : NonZeroU64
  extent : UInt64
  layout : Layout
  fingerprint_valid : validateFingerprint fingerprint = .ok ()
  layout_valid : layoutOf extent chunkFrames = .ok layout

def AnalysisFileSpec.new (sourceSampleRate : NonZeroU32) (extent : UInt64)
    (chunkFrames : NonZeroU64) (fingerprint : AnalysisFingerprint) :
    Except AnalysisFileError AnalysisFileSpec :=
  match hf : validateFingerprint fingerprint with
  | .error e => .error e
  | .ok () =>
    match hl : layoutOf extent chunkFrames with
    | .error e => .error e
    | .ok layout => .ok ⟨fingerprint, sourceSampleRate, chunkFrames, extent, layout, hf, hl⟩

structure Header where
  fingerprint : AnalysisFingerprint
  sourceSampleRate : NonZeroU32
  chunkFrames : NonZeroU64
  settled : Bool
  chunkCount : UInt64
  extent : UInt64
  indexOffset : UInt64
  latestPayloadLen : UInt64
  latestPayloadOffset : UInt64
  latestRevision : UInt64
  payloadEnd : UInt64
  payloadOffset : UInt64

namespace Header

def currentVersion : UInt32 := 0x4b414604

def base (spec : AnalysisFileSpec) : Header where
  settled := false
  latestRevision := 0
  sourceSampleRate := spec.sourceSampleRate
  extent := spec.extent
  chunkFrames := spec.chunkFrames
  chunkCount := UInt64.ofNat spec.layout.chunkCount
  indexOffset := UInt64.ofNat spec.layout.indexOffset
  payloadOffset := UInt64.ofNat spec.layout.payloadOffset
  payloadEnd := UInt64.ofNat spec.layout.payloadOffset
  latestPayloadOffset := UInt64.ofNat spec.layout.payloadOffset
  latestPayloadLen := 0
  fingerprint := spec.fingerprint

/-- The tag's length, then its bytes in a slot of fixed length. -/
def pushFingerprint (value : Option String) : Except AnalysisFileError Bytes :=
  let bytes := value.elim [] utf8
  if bytes.length > fingerprintMax then
    .error (.fingerprintTooLong bytes.length fingerprintMax)
  else .ok (writeU32 (UInt32.ofNat bytes.length) ++
    (bytes ++ List.replicate (fingerprintMax - bytes.length) 0))

def encode (header : Header) : Except AnalysisFileError Bytes := do
  let waveform ← pushFingerprint header.fingerprint.waveform
  let beat ← pushFingerprint header.fingerprint.beat
  let out := writeU32 currentVersion ++ writeBool header.settled ++ List.replicate 3 0 ++
    writeU64 header.latestRevision ++ writeU32 header.sourceSampleRate.val ++
    List.replicate 4 0 ++ writeU64 header.extent ++ writeU64 header.chunkFrames.val ++
    writeU64 header.chunkCount ++ writeU64 header.indexOffset ++ writeU64 header.payloadOffset ++
    writeU64 header.payloadEnd ++ writeU64 header.latestPayloadOffset ++
    writeU64 header.latestPayloadLen ++ waveform ++ beat
  ensure .corrupt (out.length = headerLen)
  pure out

abbrev FileReader := Reader AnalysisFileError

/-- Every fault of the bytes themselves is one fault of the file. -/
def corrupting {α : Type} (r : BlobReader α) : FileReader α :=
  mapError (fun _ => AnalysisFileError.corrupt) r

structure Identity where
  settled : Bool
  latestRevision : UInt64

structure Geometry where
  sourceSampleRate : NonZeroU32
  extent : UInt64
  chunkFrames : NonZeroU64
  chunkCount : UInt64

structure Offsets where
  indexOffset : UInt64
  payloadOffset : UInt64
  payloadEnd : UInt64
  latestPayloadOffset : UInt64
  latestPayloadLen : UInt64

def readHeaderIdentity : FileReader Identity := do
  let version ← corrupting readU32
  check (.version version currentVersion) (version = currentVersion)
  let settled ← corrupting readBool
  let reserved ← take .corrupt 3
  check .corrupt (reserved = List.replicate 3 0)
  let latestRevision ← corrupting readU64
  pure ⟨settled, latestRevision⟩

def readHeaderGeometry : FileReader Geometry := do
  let rate ← corrupting readU32
  let sourceSampleRate ← corrupting (ofResult (nonZeroU32 rate))
  let reserved ← take .corrupt 4
  check .corrupt (reserved = List.replicate 4 0)
  let extent ← corrupting readU64
  let frames ← corrupting readU64
  let chunkFrames ← corrupting (ofResult (nonZeroU64 frames))
  let chunkCount ← corrupting readU64
  pure ⟨sourceSampleRate, extent, chunkFrames, chunkCount⟩

def readHeaderOffsets : FileReader Offsets := do
  let indexOffset ← corrupting readU64
  let payloadOffset ← corrupting readU64
  let payloadEnd ← corrupting readU64
  let latestPayloadOffset ← corrupting readU64
  let latestPayloadLen ← corrupting readU64
  pure ⟨indexOffset, payloadOffset, payloadEnd, latestPayloadOffset, latestPayloadLen⟩

def tagOf (len : ℕ) (slot : Bytes) : Except BlobError (Option String) :=
  if len = 0 then .ok none else (ofUtf8 (slot.take len)).map some

def readFingerprint : FileReader (Option String) := do
  let len ← corrupting readU32
  let slot ← take .corrupt fingerprintMax
  check .corrupt (len.toNat ≤ fingerprintMax ∧ (slot.drop len.toNat).all (· == 0) = true)
  corrupting (ofResult (tagOf len.toNat slot))

def read : FileReader Header := do
  let identity ← readHeaderIdentity
  let geometry ← readHeaderGeometry
  let offsets ← readHeaderOffsets
  let waveform ← readFingerprint
  let beat ← readFingerprint
  pure {
    settled := identity.settled, latestRevision := identity.latestRevision
    sourceSampleRate := geometry.sourceSampleRate, extent := geometry.extent
    chunkFrames := geometry.chunkFrames, chunkCount := geometry.chunkCount
    indexOffset := offsets.indexOffset, payloadOffset := offsets.payloadOffset
    payloadEnd := offsets.payloadEnd, latestPayloadOffset := offsets.latestPayloadOffset
    latestPayloadLen := offsets.latestPayloadLen
    fingerprint := ⟨beat, waveform⟩ }

def decode (bytes : Bytes) : Except AnalysisFileError Header := whole .corrupt read bytes

def validate (header : Header) (layout : Layout) (byteLen : ℕ) : Except AnalysisFileError Unit :=
  let latestEnd := header.latestPayloadOffset.toNat + header.latestPayloadLen.toNat
  if header.chunkCount.toNat ≠ layout.chunkCount ∨ header.indexOffset.toNat ≠ layout.indexOffset ∨
      header.payloadOffset.toNat ≠ layout.payloadOffset then .error .corrupt
  else if 2 ^ 64 ≤ latestEnd then .error .corrupt
  else if header.payloadEnd.toNat ≠ byteLen ∨ header.payloadEnd < header.payloadOffset ∨
      header.latestPayloadLen = 0 ∨ header.latestPayloadOffset ≠ header.payloadOffset ∨
      latestEnd ≠ header.payloadEnd.toNat then .error .corrupt
  else .ok ()

end Header

def chunkRange (spec : AnalysisFileSpec) (id : ℕ) : Except AnalysisFileError (ℕ × ℕ) :=
  let start := id * spec.chunkFrames.val.toNat
  let stop := min (min (start + spec.chunkFrames.val.toNat) (2 ^ 64 - 1)) spec.extent.toNat
  if 2 ^ 64 ≤ start then .error .tooLarge
  else if stop ≤ start then .error .corrupt
  else .ok (start, stop)

def encodeEntry (entry : Bool) : Bytes := [if entry then 1 else 0]

def decodeEntry (raw : UInt8) : Except AnalysisFileError Bool :=
  (whole .corrupt readBool [raw]).mapError fun _ => .corrupt

def slice (bytes : Bytes) (start stop : ℕ) : Except AnalysisFileError Bytes :=
  if start ≤ stop ∧ stop ≤ bytes.length then .ok ((bytes.drop start).take (stop - start))
  else .error .corrupt

def validateAnalysis (spec : AnalysisFileSpec) (analysis : TrackAnalysis W B) :
    Except AnalysisFileError Unit :=
  if analysis.sourceSampleRate ≠ spec.sourceSampleRate ∨ analysis.extent ≠ some spec.extent ∨
      analysis.fingerprint ≠ spec.fingerprint ∨
      ∃ run ∈ analysis.coverage.set.runs, run.2 > spec.extent.toNat then .error .config
  else .ok ()

/-- The index says of every chunk whether the publication covers it; `id` is the first of the
entries left. -/
def validateIndexCoverage (spec : AnalysisFileSpec) (latest : TrackAnalysis W B) :
    ℕ → List Bool → Except AnalysisFileError Unit
  | _, [] => .ok ()
  | id, entry :: rest => do
    let range ← (chunkRange spec id).mapError fun _ => AnalysisFileError.corrupt
    if (!entry) != !latest.coverage.covers range.1 range.2 then .error .corrupt
    else validateIndexCoverage spec latest (id + 1) rest

/-- The captured state continues a pass of the file's own chunk size. -/
def resumeMatches (spec : AnalysisFileSpec) (progress : AnalysisProgress S) : Bool :=
  progress.resume.all fun resume => decide (resume.chunkFrames = spec.chunkFrames)

structure AnalysisFile (S : Sections W B) where
  spec : AnalysisFileSpec
  latest : AnalysisProgress S
  header : Header
  index : List Bool

namespace AnalysisFile

def readIndex (header : Header) (bytes : Bytes) : Except AnalysisFileError (List Bool) := do
  let indexBytes ← slice bytes header.indexOffset.toNat header.payloadOffset.toNat
  ensure .corrupt
    (indexBytes.length = min (header.chunkCount.toNat * indexEntryLen) (2 ^ 64 - 1))
  indexBytes.mapM decodeEntry

def readLatest (header : Header) (bytes : Bytes) (spec : AnalysisFileSpec) :
    Except AnalysisFileError (AnalysisProgress S) := do
  let latestEnd := header.latestPayloadOffset.toNat + header.latestPayloadLen.toNat
  ensure .corrupt (latestEnd < 2 ^ 64)
  let payload ← slice bytes header.latestPayloadOffset.toNat latestEnd
  let latest ← (AnalysisProgress.tryFrom payload spec.fingerprint).mapError .payload
  (validateAnalysis spec latest.analysis).mapError fun _ => AnalysisFileError.corrupt
  ensure .corrupt (latest.analysis.revision = header.latestRevision ∧
    latest.analysis.settled = header.settled)
  ensure .corrupt (resumeMatches spec latest)
  pure latest

def parse (bytes : Bytes) (expectedFingerprint : AnalysisFingerprint) :
    Except AnalysisFileError (AnalysisFile S) := do
  let headerBytes ← slice bytes 0 headerLen
  let header ← Header.decode headerBytes
  ensure .config (header.fingerprint = expectedFingerprint)
  let spec ← AnalysisFileSpec.new header.sourceSampleRate header.extent header.chunkFrames
    header.fingerprint
  header.validate spec.layout bytes.length
  let index ← readIndex header bytes
  let latest ← readLatest header bytes spec
  validateIndexCoverage spec latest.analysis 0 index
  pure { spec, latest, header, index }

end AnalysisFile

structure AnalysisFileBytes where
  offset : ℕ
  bytes : Bytes

structure AnalysisFileUpdate where
  payload : AnalysisFileBytes
  initial : Option Bytes
  patches : List AnalysisFileBytes
  finalLen : ℕ

def stateForUpdate (file : AnalysisFile S) (analysis : TrackAnalysis W B) :
    Except AnalysisFileError (Header × List Bool) :=
  if analysis.revision ≤ file.header.latestRevision then
    .error (.staleRevision file.header.latestRevision analysis.revision)
  else if file.header.settled && !analysis.settled then .error .config
  else .ok (file.header, file.index)

/-- One patch for each newly covered chunk; `id` is the first of the entries left. -/
def indexPatches (spec : AnalysisFileSpec) (analysis : TrackAnalysis W B) :
    ℕ → List Bool → Except AnalysisFileError (List AnalysisFileBytes)
  | _, [] => .ok []
  | id, held :: rest => do
    let range ← chunkRange spec id
    let covered := analysis.coverage.covers range.1 range.2
    if held && !covered then .error (.coverageRegression id)
    else
      let later ← indexPatches spec analysis (id + 1) rest
      if !held && covered then
        pure (⟨spec.layout.indexOffset + id * indexEntryLen, encodeEntry true⟩ :: later)
      else pure later

def stateForCreate (spec : AnalysisFileSpec) :
    Except AnalysisFileError (Header × List Bool × Option Bytes) := do
  let header := Header.base spec
  let encoded ← header.encode
  pure (header, List.replicate spec.layout.chunkCount false,
    some (encoded ++ List.replicate (spec.layout.payloadOffset - encoded.length) 0))

/-- The header and index an update starts from, and for a new file its fixed bytes. -/
def startingState (spec : AnalysisFileSpec) (existing : Option (AnalysisFile S))
    (analysis : TrackAnalysis W B) :
    Except AnalysisFileError (Header × List Bool × Option Bytes) :=
  match existing with
  | some file => (stateForUpdate file analysis).map fun state => (state.1, state.2, none)
  | none => stateForCreate spec

/-- The header of the latest publication, over the identity and layout it had. -/
def Header.restate (header : Header) (spec : AnalysisFileSpec) (analysis : TrackAnalysis W B)
    (payloadLen : ℕ) : Header :=
  { header with
    settled := analysis.settled
    latestRevision := analysis.revision
    payloadEnd := UInt64.ofNat (spec.layout.payloadOffset + payloadLen)
    latestPayloadOffset := UInt64.ofNat spec.layout.payloadOffset
    latestPayloadLen := UInt64.ofNat payloadLen }

def buildUpdate (spec : AnalysisFileSpec) (existing : Option (AnalysisFile S))
    (progress : AnalysisProgress S) : Except AnalysisFileError AnalysisFileUpdate := do
  let analysis := progress.analysis
  validateAnalysis spec analysis
  progress.validateResume.mapError AnalysisFileError.payload
  ensure .config (resumeMatches spec progress)
  let (header, index, initial) ← startingState spec existing analysis
  let payload ← progress.writeTo.mapError AnalysisFileError.payload
  let finalLen := spec.layout.payloadOffset + payload.length
  ensure .tooLarge (finalLen < 2 ^ 64)
  let patches ← indexPatches spec analysis 0 index
  let encoded ← (header.restate spec analysis payload.length).encode
  pure { initial, payload := ⟨spec.layout.payloadOffset, payload⟩,
         patches := patches ++ [⟨0, encoded⟩], finalLen }

namespace AnalysisFile

def create (spec : AnalysisFileSpec) (progress : AnalysisProgress S) :
    Except AnalysisFileError AnalysisFileUpdate := buildUpdate spec none progress

def update (file : AnalysisFile S) (progress : AnalysisProgress S) :
    Except AnalysisFileError AnalysisFileUpdate := buildUpdate file.spec (some file) progress

end AnalysisFile

/-- A write may grow the destination, with zeros up to its offset. -/
def writeAt (bytes : Bytes) (write : AnalysisFileBytes) : Bytes :=
  let grown := bytes ++ List.replicate (write.offset + write.bytes.length - bytes.length) 0
  grown.take write.offset ++ write.bytes ++ grown.drop (write.offset + write.bytes.length)

/-- The replacement a writer commits: the fixed part given or taken from the bytes before, the
payload, the patches in order, cut to the final length. -/
def AnalysisFileUpdate.apply (update : AnalysisFileUpdate) (previous : Bytes) : Bytes :=
  let fixed := update.initial.getD (previous.take update.payload.offset)
  (update.patches.foldl writeAt (writeAt fixed update.payload)).take update.finalLen

end AnalysisArchive

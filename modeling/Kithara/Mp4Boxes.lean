import Mathlib.Algebra.Group.Int.Defs
import Mathlib.Algebra.Order.Group.Nat
import Mathlib.Data.Int.Notation

/-! The boxes of an MP4 file, read from its bytes: where one ends, and the payloads the scan looks
into. Reads at a place past the end of the bytes fail as reads do; the pool grants every buffer. -/
namespace Mp4Scan

abbrev Bytes := List UInt8

inductive Mp4MetadataError where
  | io
  | invalidData (message : String)
  deriving DecidableEq, Repr

def invalid {α : Type} (message : String) : Except Mp4MetadataError α :=
  .error (.invalidData message)

def ascii (text : List Char) : Bytes := text.map fun c => c.toNat.toUInt8

def boxData : Bytes := ascii ['d', 'a', 't', 'a']
def boxEdts : Bytes := ascii ['e', 'd', 't', 's']
def boxElst : Bytes := ascii ['e', 'l', 's', 't']
def boxFreeform : Bytes := ascii ['-', '-', '-', '-']
def boxIlst : Bytes := ascii ['i', 'l', 's', 't']
def boxMdhd : Bytes := ascii ['m', 'd', 'h', 'd']
def boxMdia : Bytes := ascii ['m', 'd', 'i', 'a']
def boxMean : Bytes := ascii ['m', 'e', 'a', 'n']
def boxMeta : Bytes := ascii ['m', 'e', 't', 'a']
def boxMinf : Bytes := ascii ['m', 'i', 'n', 'f']
def boxMoov : Bytes := ascii ['m', 'o', 'o', 'v']
def boxMvhd : Bytes := ascii ['m', 'v', 'h', 'd']
def boxName : Bytes := ascii ['n', 'a', 'm', 'e']
def boxStbl : Bytes := ascii ['s', 't', 'b', 'l']
def boxStsd : Bytes := ascii ['s', 't', 's', 'd']
def boxTrak : Bytes := ascii ['t', 'r', 'a', 'k']
def boxTkhd : Bytes := ascii ['t', 'k', 'h', 'd']
def boxUdta : Bytes := ascii ['u', 'd', 't', 'a']

def elstMaxEntries : ℕ := 4096
def freeformMaxBytes : ℕ := 64 * 1024

def itunesMean : Bytes :=
  ascii ['c', 'o', 'm', '.', 'a', 'p', 'p', 'l', 'e', '.', 'i', 'T', 'u', 'n', 'e', 's']

def itunsmpbName : Bytes := ascii ['i', 'T', 'u', 'n', 'S', 'M', 'P', 'B']

def readExact (data : Bytes) (pos n : ℕ) : Option Bytes :=
  if pos + n ≤ data.length then some ((data.drop pos).take n) else none

def bigEndian (bytes : Bytes) : ℕ := bytes.foldl (fun n b => n * 256 + b.toNat) 0

/-- A big-endian word of `n` bytes. -/
def word (payload : Bytes) (offset n : ℕ) : Option ℕ := (readExact payload offset n).map bigEndian

/-- A big-endian word of `n` bytes in two's complement. -/
def signedWord (payload : Bytes) (offset n : ℕ) : Option ℤ :=
  (word payload offset n).map fun w => if w < 2 ^ (8 * n - 1) then w else w - 2 ^ (8 * n)

/-- A box: what it is, where its payload starts and where it ends. -/
structure BoxRef where
  kind : Bytes
  start : ℕ
  stop : ℕ
  deriving DecidableEq, Repr

/-- The header's length and the box's, from the four bytes of its size; nothing when the box goes
to the end and that is not known. -/
def boxSize (data : Bytes) (pos size32 : ℕ) (limit : Option ℕ) :
    Except Mp4MetadataError (Option (ℕ × ℕ)) :=
  if size32 = 1 then
    match readExact data (pos + 8) 8 with
    | none => invalid "truncated extended MP4 box size"
    | some extended => .ok (some (16, bigEndian extended))
  else if size32 = 0 then .ok (limit.map fun limit => (8, limit - pos))
  else .ok (some (8, size32))

def nextBox (data : Bytes) (pos : ℕ) (limit : Option ℕ) :
    Except Mp4MetadataError (Option BoxRef) :=
  if limit.any fun limit => decide (limit ≤ pos) then .ok none
  else match readExact data pos 8 with
  | none => if limit.isSome then invalid "truncated MP4 box header" else .ok none
  | some header =>
    match boxSize data pos (bigEndian (header.take 4)) limit with
    | .error e => .error e
    | .ok none => .ok none
    | .ok (some (headerLen, totalSize)) =>
      if totalSize < headerLen then invalid "MP4 box size is smaller than its header"
      else if 2 ^ 64 ≤ pos + totalSize then invalid "MP4 box size overflow"
      else if limit.any fun limit => decide (limit < pos + totalSize) then
        invalid "MP4 box extends past available bytes"
      else .ok (some ⟨header.drop 4, pos + headerLen, pos + totalSize⟩)

def readPayload (data : Bytes) (start stop : ℕ) (label : String) : Except Mp4MetadataError Bytes :=
  if stop < start then invalid (label ++ " payload range underflow")
  else match readExact data start (stop - start) with
  | none => .error .io
  | some payload => .ok payload

theorem boxSize_header {data : Bytes} {pos size32 : ℕ} {limit : Option ℕ} {headerLen total : ℕ}
    (h : boxSize data pos size32 limit = .ok (some (headerLen, total))) : 8 ≤ headerLen := by
  unfold boxSize at h
  split at h
  · split at h
    · cases h
    · cases h
      omega
  · split at h
    · cases limit with
      | none => cases h
      | some limit =>
        cases h
        omega
    · cases h
      omega

/-- A box that is found lies past its header and before the limit, and its header is there. -/
theorem nextBox_some {data : Bytes} {pos : ℕ} {limit : Option ℕ} {header : BoxRef}
    (h : nextBox data pos limit = .ok (some header)) :
    pos + 8 ≤ header.stop ∧ pos + 8 ≤ data.length ∧ ∀ last ∈ limit, header.stop ≤ last := by
  unfold nextBox at h
  split at h
  · cases h
  · split at h
    · split at h
      · cases h
      · cases h
    · next bytes hread =>
      split at h
      · cases h
      · cases h
      · next headerLen total hsize =>
        have hheader := boxSize_header hsize
        split at h
        · cases h
        · split at h
          · cases h
          · split at h
            · cases h
            · next hlimit =>
              cases h
              refine ⟨by dsimp only; omega, ?_, ?_⟩
              · unfold readExact at hread
                split at hread
                · assumption
                · cases hread
              · rintro last rfl
                simpa using hlimit

structure Mp4MediaTiming where
  timescale : ℕ
  duration : ℕ
  deriving DecidableEq, Repr

structure Mp4EditListEntry where
  mediaTime : ℤ
  segmentDuration : ℕ
  mediaRate : ℤ
  deriving DecidableEq, Repr

structure ItunSmpb where
  leadingFrames : ℕ
  trailingFrames : ℕ
  deriving DecidableEq, Repr

/-- The codec tag of the first sample entry. -/
def parseStsdCodec (payload : Bytes) : Option Bytes := readExact payload 12 4

def parseStsdSampleRate (payload : Bytes) : Option ℕ :=
  if (payload.drop 16).length < 28 then none
  else (word (payload.drop 16) 24 4).map fun rate => rate / 2 ^ 16

def required {α : Type} (found : Option α) (label : String) : Except Mp4MetadataError α :=
  match found with
  | none => invalid (label ++ " is truncated")
  | some value => .ok value

def parseElstV0 (payload : Bytes) (offset : ℕ) : Except Mp4MetadataError Mp4EditListEntry := do
  let segmentDuration ← required (word payload offset 4) "elst v0 segment duration"
  let mediaTime ← required (signedWord payload (offset + 4) 4) "elst v0 media time"
  let mediaRate ← required (signedWord payload (offset + 8) 4) "elst v0 media rate"
  return ⟨mediaTime, segmentDuration, mediaRate⟩

def parseElstV1 (payload : Bytes) (offset : ℕ) : Except Mp4MetadataError Mp4EditListEntry := do
  let segmentDuration ← required (word payload offset 8) "elst v1 segment duration"
  let mediaTime ← required (signedWord payload (offset + 8) 8) "elst v1 media time"
  let mediaRate ← required (signedWord payload (offset + 16) 4) "elst v1 media rate"
  return ⟨mediaTime, segmentDuration, mediaRate⟩

def parseElstEntries (version : UInt8) (payload : Bytes) :
    ℕ → ℕ → Except Mp4MetadataError (List Mp4EditListEntry)
  | 0, _ => .ok []
  | count + 1, offset => do
    if version = 0 then
      let entry ← parseElstV0 payload offset
      return entry :: (← parseElstEntries version payload count (offset + 12))
    else if version = 1 then
      let entry ← parseElstV1 payload offset
      return entry :: (← parseElstEntries version payload count (offset + 20))
    else invalid ("unsupported elst version " ++ toString version)

def parseElst (payload : Bytes) : Except Mp4MetadataError (List Mp4EditListEntry) :=
  match payload with
  | [] => invalid "elst is empty"
  | version :: _ => do
    let entryCount ← required (word payload 4 4) "elst entry count"
    parseElstEntries version payload (min entryCount elstMaxEntries) 8

def parseTkhdTrackId (payload : Bytes) : Option ℕ :=
  match payload with
  | 0 :: _ => word payload 12 4
  | 1 :: _ => word payload 20 4
  | _ => none

def parseMvhdTimescale (payload : Bytes) : Option ℕ :=
  match payload with
  | 0 :: _ => word payload 12 4
  | 1 :: _ => word payload 20 4
  | _ => none

def parseMdhd (payload : Bytes) : Option Mp4MediaTiming :=
  match payload with
  | 0 :: _ => do
    let timescale ← word payload 12 4
    let duration ← word payload 16 4
    return ⟨timescale, duration⟩
  | 1 :: _ => do
    let timescale ← word payload 20 4
    let duration ← word payload 24 8
    return ⟨timescale, duration⟩
  | _ => none

/-- The type code and the value of a `data` box. -/
def parseDataBox (payload : Bytes) : Option (ℕ × Bytes) := do
  let header ← word payload 0 4
  if payload.length < 8 then none else some (header % 2 ^ 24, payload.drop 8)

/-- The ranges of the bytes that must follow a first byte in UTF-8. -/
def utf8Follow (b : UInt8) : Option (List (UInt8 × UInt8)) :=
  if b < 0x80 then some []
  else if b < 0xc2 then none
  else if b < 0xe0 then some [(0x80, 0xbf)]
  else if b = 0xe0 then some [(0xa0, 0xbf), (0x80, 0xbf)]
  else if b = 0xed then some [(0x80, 0x9f), (0x80, 0xbf)]
  else if b < 0xf0 then some [(0x80, 0xbf), (0x80, 0xbf)]
  else if b = 0xf0 then some [(0x90, 0xbf), (0x80, 0xbf), (0x80, 0xbf)]
  else if b < 0xf4 then some [(0x80, 0xbf), (0x80, 0xbf), (0x80, 0xbf)]
  else if b = 0xf4 then some [(0x80, 0x8f), (0x80, 0xbf), (0x80, 0xbf)]
  else none

def utf8Valid : List (UInt8 × UInt8) → Bytes → Bool
  | [], [] => true
  | _ :: _, [] => false
  | [], b :: rest =>
    match utf8Follow b with
    | some follow => utf8Valid follow rest
    | none => false
  | (low, high) :: follow, b :: rest => decide (low ≤ b ∧ b ≤ high) && utf8Valid follow rest

def trimZeros (bytes : Bytes) : Bytes := (bytes.reverse.dropWhile fun b => b == 0).reverse

def isAsciiWhitespace (b : UInt8) : Bool := b == 9 || b == 10 || b == 12 || b == 13 || b == 32

def splitAsciiWhitespace (bytes : Bytes) : List Bytes :=
  (bytes.splitOnP isAsciiWhitespace).filter fun token => !token.isEmpty

def hexDigit (b : UInt8) : Option ℕ :=
  if 0x30 ≤ b ∧ b ≤ 0x39 then some (b.toNat - 0x30)
  else if 0x61 ≤ b ∧ b ≤ 0x66 then some (b.toNat - 0x57)
  else if 0x41 ≤ b ∧ b ≤ 0x46 then some (b.toNat - 0x37)
  else none

def hexDigits (n : ℕ) : Bytes → Option ℕ
  | [] => some n
  | b :: rest => do
    let digit ← hexDigit b
    if 2 ^ 64 ≤ n * 16 + digit then none else hexDigits (n * 16 + digit) rest

/-- A `u64` in hexadecimal, with a sign of plus or none. -/
def parseHex (token : Bytes) : Option ℕ :=
  match token with
  | [] => none
  | 0x2b :: [] => none
  | 0x2b :: digits => hexDigits 0 digits
  | digits => hexDigits 0 digits

def parseItunsmpb (value : Bytes) : Option ItunSmpb :=
  if utf8Valid [] value then
    match splitAsciiWhitespace (trimZeros value) with
    | _ :: leading :: trailing :: _ => do
      return ⟨← parseHex leading, ← parseHex trailing⟩
    | _ => none
  else none

def readTextFullboxBytes (payload : Bytes) : Option Bytes :=
  if payload.length < 4 then none else some (trimZeros (payload.drop 4))

structure Freeform where
  mean : Option Bytes
  name : Option Bytes
  dataRange : Option (ℕ × ℕ)

def readFreeform (data : Bytes) (stop pos : ℕ) (parts : Freeform) :
    Except Mp4MetadataError Freeform :=
  match h : nextBox data pos (some stop) with
  | .error e => .error e
  | .ok none => .ok parts
  | .ok (some header) =>
    have : stop - header.stop < stop - pos := by
      have hspec := nextBox_some h
      have := hspec.2.2 stop rfl
      omega
    if header.kind = boxMean then
      match readPayload data header.start header.stop "mean" with
      | .error e => .error e
      | .ok payload =>
        readFreeform data stop header.stop { parts with mean := readTextFullboxBytes payload }
    else if header.kind = boxName then
      match readPayload data header.start header.stop "name" with
      | .error e => .error e
      | .ok payload =>
        readFreeform data stop header.stop { parts with name := readTextFullboxBytes payload }
    else if header.kind = boxData then
      readFreeform data stop header.stop
        { parts with dataRange := some (header.start, header.stop) }
    else readFreeform data stop header.stop parts
termination_by stop - pos

/-- The gapless tag, from an atom of its kind that is small enough. -/
def readItunsmpb (data : Bytes) (start stop : ℕ) : Except Mp4MetadataError (Option ItunSmpb) :=
  if stop - start = 0 ∨ freeformMaxBytes < stop - start then .ok none
  else match readFreeform data stop start ⟨none, none, none⟩ with
  | .error e => .error e
  | .ok parts =>
    if parts.mean = some itunesMean ∧ parts.name = some itunsmpbName then
      match parts.dataRange with
      | none => .ok none
      | some (dataStart, dataEnd) =>
        match readPayload data dataStart dataEnd "iTunSMPB data" with
        | .error e => .error e
        | .ok payload => .ok ((parseDataBox payload).bind fun p => parseItunsmpb p.2)
    else .ok none

end Mp4Scan

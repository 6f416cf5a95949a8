import Mathlib.Data.Nat.Notation
import Mathlib.Algebra.GroupWithZero.Nat
import Mathlib.Data.Int.Notation

/-! The two walks over a fragmented mp4: the layout a seek is planned by, and the sample table a
segment is decoded by. Box headers and bodies come decoded; a file is the sequence of its top-level
boxes, and the walks read what lies before `total`. -/
namespace FragmentTables

def maxU64 : ℕ := 2 ^ 64 - 1

def saturatingAdd (a b : ℕ) : ℕ := min (a + b) maxU64

structure TfhdBox where
  flags : UInt32
  trackId : UInt32
  baseDataOffset : Option ℕ
  defaultSampleDuration : Option UInt32
  defaultSampleSize : Option UInt32

def flagDefaultBaseIsMoof : UInt32 := 0x020000

def flagSampleDuration : UInt32 := 0x000100

def flagSampleSize : UInt32 := 0x000200

/-- A decoded run: it carries one duration for each sample exactly where its flag says so. -/
structure TrunBox where
  flags : UInt32
  sampleCount : UInt32
  dataOffset : Option ℤ
  sampleDurations : List UInt32
  sampleSizes : List UInt32
  decoded : sampleDurations.length =
    if flags &&& flagSampleDuration ≠ 0 then sampleCount.toNat else 0

structure TrafBox where
  tfhd : TfhdBox
  tfdt : Option UInt64
  truns : List TrunBox

structure MoofBox where
  trafs : List TrafBox

inductive BoxBody where
  | moof (moof : MoofBox)
  | mdat
  | other

/-- A top-level box; its size covers at least its own header. -/
structure TopBox where
  size : ℕ
  body : BoxBody
  covers : 8 ≤ size

inductive SampleEntry where
  | mp4a
  | unknown
  | known
  deriving DecidableEq

structure Trak where
  trackId : UInt32
  sampleEntry : SampleEntry
  timescale : ℕ

structure Mp4 where
  traks : List Trak
  boxes : List TopBox
  total : ℕ

/-- The fragments of a walk from one position: each moof with the position it starts at. -/
def moofsFrom (total : ℕ) : ℕ → List TopBox → List (ℕ × MoofBox)
  | _, [] => []
  | position, box :: rest =>
    if position < total then
      match box.body with
      | .moof moof => (position, moof) :: moofsFrom total (position + box.size) rest
      | _ => moofsFrom total (position + box.size) rest
    else []

def Mp4.moofs (mp4 : Mp4) : List (ℕ × MoofBox) := moofsFrom mp4.total 0 mp4.boxes

structure Fragment where
  start : ℕ
  finish : ℕ
  decodeTicks : ℕ
  durationTicks : ℕ
  deriving DecidableEq

structure Fmp4Layout where
  initEnd : ℕ
  fragments : List Fragment
  timescale : ℕ
  deriving DecidableEq

def trunDurationTicks (trun : TrunBox) (tfhd : TfhdBox) : ℕ :=
  if trun.sampleDurations ≠ [] then (trun.sampleDurations.map UInt32.toNat).sum
  else if 0 < trun.sampleCount then
    min (trun.sampleCount.toNat * (tfhd.defaultSampleDuration.getD 0).toNat) maxU64
  else 0

def fragmentFromMoof (start : ℕ) (moof : MoofBox) (byteEnd : ℕ) (prevDecodeTicks : Option ℕ) :
    Option Fragment := do
  let traf ← moof.trafs.head?
  let decodeTicks := ((traf.tfdt.map UInt64.toNat).or prevDecodeTicks).getD 0
  let durationTicks := (traf.truns.map (trunDurationTicks · traf.tfhd)).sum % 2 ^ 64
  if durationTicks = 0 then none
  else if byteEnd ≤ start then none
  else some { start, finish := byteEnd, decodeTicks, durationTicks }

/-- Every fragment in file order; one malformed fragment voids the layout. -/
def fragmentsOf (total : ℕ) : Option ℕ → List (ℕ × MoofBox) → Option (List Fragment)
  | _, [] => some []
  | prev, (start, moof) :: rest => do
    let byteEnd := (rest.head?.map Prod.fst).getD total
    let fragment ← fragmentFromMoof start moof byteEnd prev
    let next := saturatingAdd fragment.decodeTicks fragment.durationTicks
    let fragments ← fragmentsOf total (some next) rest
    some (fragment :: fragments)

/-- The first track whose sample entry reads as audio, an unknown one included. -/
def Mp4.audioTrak (mp4 : Mp4) : Option Trak :=
  mp4.traks.find? fun trak => trak.sampleEntry = .mp4a ∨ trak.sampleEntry = .unknown

def Fmp4Layout.read (mp4 : Mp4) : Option Fmp4Layout := do
  let (firstMoofStart, _) ← mp4.moofs.head?
  let trak ← mp4.audioTrak
  if trak.timescale = 0 then none
  else if firstMoofStart = 0 then none
  else
    let fragments ← fragmentsOf mp4.total none mp4.moofs
    some { initEnd := firstMoofStart, fragments, timescale := trak.timescale }

structure Sample where
  start : ℕ
  finish : ℕ
  durationTicks : UInt32
  decodeTicks : ℕ
  deriving DecidableEq

def offsetFrom (base : ℕ) (dataOffset : ℤ) : ℕ :=
  if dataOffset < 0 then base - dataOffset.natAbs else saturatingAdd base dataOffset.natAbs

def sampleSize (trun : TrunBox) (tfhd : TfhdBox) (index : ℕ) : Except String UInt32 :=
  if trun.flags &&& flagSampleSize ≠ 0 then
    match trun.sampleSizes[index]? with
    | some size => .ok size
    | none => .error "missing trun sample_size"
  else
    match tfhd.defaultSampleSize with
    | some size => .ok size
    | none => .error "no default_sample_size"

def sampleDuration (trun : TrunBox) (tfhd : TfhdBox) (index : ℕ) : UInt32 :=
  if trun.flags &&& flagSampleDuration ≠ 0 then trun.sampleDurations.getD index 0
  else tfhd.defaultSampleDuration.getD 0

def trafOf (moof : MoofBox) (trackId : UInt32) : Option TrafBox :=
  (moof.trafs.find? fun traf => traf.tfhd.trackId = trackId).or moof.trafs.head?

/-- The samples of one run from `index` on, with the decode time after them. -/
def trunSamples (total : ℕ) (trun : TrunBox) (tfhd : TfhdBox) :
    (count index byteCursor decodeTicks : ℕ) → Except String (List Sample × ℕ)
  | 0, _, _, decodeTicks => .ok ([], decodeTicks)
  | count + 1, index, byteCursor, decodeTicks => do
    let size ← sampleSize trun tfhd index
    let durationTicks := sampleDuration trun tfhd index
    let finish := byteCursor + size.toNat
    if maxU64 < finish then .error "sample byte range overflow"
    else if total < finish then .error "sample byte range past segment end"
    else
      let (samples, after) ← trunSamples total trun tfhd count (index + 1) finish
        (saturatingAdd decodeTicks durationTicks.toNat)
      return ({ start := byteCursor, finish, durationTicks, decodeTicks } :: samples, after)

def trunsSamples (total moofStart : ℕ) (tfhd : TfhdBox) :
    List TrunBox → ℕ → Except String (List Sample)
  | [], _ => .ok []
  | trun :: rest, decodeTicks => do
    let base := if tfhd.flags &&& flagDefaultBaseIsMoof ≠ 0 then moofStart
      else tfhd.baseDataOffset.getD moofStart
    let byteCursor := offsetFrom base (trun.dataOffset.getD 0)
    let (samples, after) ← trunSamples total trun tfhd trun.sampleCount.toNat 0 byteCursor
      decodeTicks
    let others ← trunsSamples total moofStart tfhd rest after
    return samples ++ others

def collectSamples (moof : MoofBox) (moofStart : ℕ) (trackId : UInt32) (total : ℕ) :
    Except String (List Sample) :=
  match trafOf moof trackId with
  | none => .error "moof has no traf"
  | some traf => trunsSamples total moofStart traf.tfhd traf.truns (traf.tfdt.getD 0).toNat

/-- The samples of a body, one list for each moof in the order of the walk. -/
def sampleGroups (trackId : UInt32) (total : ℕ) :
    ℕ → List TopBox → Except String (List (List Sample))
  | position, [] => if position < total then .error "unreadable box header" else .ok []
  | position, box :: rest =>
    if total ≤ position then .ok []
    else if box.size < 8 then .error "invalid box size in media segment"
    else
      match box.body with
      | .moof moof =>
        match rest with
        | [] => .error "unreadable box header after moof"
        | mdat :: rest' =>
          if total ≤ position + box.size then .error "unreadable box header after moof"
          else
            match mdat.body with
            | .mdat => do
              let group ← collectSamples moof position trackId total
              let groups ← sampleGroups trackId total (position + box.size + mdat.size) rest'
              return group :: groups
            | _ => .error "expected mdat box after moof"
      | _ => sampleGroups trackId total (position + box.size) rest

def readSamples (mp4 : Mp4) (trackId : UInt32) : Except String (List Sample) :=
  (sampleGroups trackId mp4.total 0 mp4.boxes).map List.flatten

end FragmentTables

import Kithara.FragmentTimes
import Kithara.PlacedRuns

/-! The sample walk over the bytes of a media segment. Box headers and moof bodies are read by the
mp4 library, which is a parameter; the walk itself, its ends and the byte ranges are modelled. -/
namespace SampleWalk

open FragmentTables FragmentTimes PlacedRuns

inductive BoxType where
  | moof
  | mdat
  | other
  deriving DecidableEq

structure BoxHeader where
  name : BoxType
  size : ℕ

structure ParsedMoof where
  moof : MoofBox
  bases : ∀ traf ∈ moof.trafs, ∀ offset ∈ traf.tfhd.baseDataOffset, offset ≤ maxU64

/-- The library: a header with the bytes it takes, and a moof from behind its header. -/
structure BoxReaders where
  header : List UInt8 → Option (BoxHeader × ℕ)
  readMoof : List UInt8 → ℕ → Option ParsedMoof

def boxHeaderBytes : ℕ := 8

structure Visit where
  moofStart : ℕ
  parsed : ParsedMoof
  mdatStart : ℕ
  mdatHeader : ℕ
  mdatSize : ℕ
  samples : List Sample

variable (readers : BoxReaders) (bytes : List UInt8) (total : UInt64) (trackId : UInt32)

/-- The cursor reads what lies between its position and the end of the body. -/
def remaining (position : ℕ) : List UInt8 := (bytes.take total.toNat).drop position

/-- One turn of the loop: the next position, and the moof it visited if any. -/
def iterate (position : ℕ) : Except String (ℕ × Option Visit) :=
  match readers.header (remaining bytes total position) with
  | none => .error "unreadable box header"
  | some (header, headerBytes) =>
    if header.size < boxHeaderBytes then .error "invalid box size in media segment"
    else
      let boxEnd := saturatingAdd position header.size
      if header.name ≠ .moof then .ok (boxEnd, none)
      else
        match readers.readMoof (remaining bytes total (position + headerBytes)) header.size with
        | none => .error "unreadable moof box"
        | some parsed =>
          match readers.header (remaining bytes total boxEnd) with
          | none => .error "unreadable box header after moof"
          | some (mdat, mdatHeader) =>
            if mdat.name ≠ .mdat then .error "expected mdat box after moof"
            else
              match collectSamples parsed.moof position trackId total.toNat with
              | .error error => .error error
              | .ok samples =>
                .ok (saturatingAdd boxEnd mdat.size,
                  some ⟨position, parsed, boxEnd, mdatHeader, mdat.size, samples⟩)

variable {readers bytes total trackId} {position next : ℕ} {visit : Option Visit}

theorem total_le (total : UInt64) : total.toNat ≤ maxU64 := Nat.le_sub_one_of_lt total.toNat_lt

theorem iterate_cases (h : iterate readers bytes total trackId position = .ok (next, visit)) :
    ∃ header headerBytes, readers.header (remaining bytes total position) =
        some (header, headerBytes) ∧ 8 ≤ header.size ∧
      (header.name ≠ .moof ∧ next = saturatingAdd position header.size ∧ visit = none ∨
        header.name = .moof ∧ ∃ mdat mdatHeader parsed samples,
          readers.header (remaining bytes total (saturatingAdd position header.size)) =
            some (mdat, mdatHeader) ∧ mdat.name = .mdat ∧
          collectSamples parsed.moof position trackId total.toNat = .ok samples ∧
          next = saturatingAdd (saturatingAdd position header.size) mdat.size ∧
          visit = some ⟨position, parsed, saturatingAdd position header.size, mdatHeader,
            mdat.size, samples⟩) := by
  rw [iterate] at h
  split at h
  · cases h
  · rename_i header headerBytes hheader
    refine ⟨header, headerBytes, hheader, ?_⟩
    split at h
    · cases h
    · rename_i hsize
      refine ⟨Nat.le_of_not_lt hsize, ?_⟩
      dsimp only at h
      split at h
      · rename_i hname
        cases h
        exact .inl ⟨hname, rfl, rfl⟩
      · rename_i hname
        refine .inr ⟨not_not.mp hname, ?_⟩
        split at h
        · cases h
        · rename_i parsed hparsed
          split at h
          · cases h
          · rename_i mdat mdatHeader hmdat
            split at h
            · cases h
            · rename_i hmdatName
              split at h
              · cases h
              · rename_i samples hsamples
                cases h
                exact ⟨mdat, mdatHeader, parsed, samples, hmdat, not_not.mp hmdatName, hsamples,
                  rfl, rfl⟩

theorem iterate_advances (h : iterate readers bytes total trackId position = .ok (next, visit))
    (hin : position < total.toNat) : position < next := by
  have htotal := total_le total
  obtain ⟨header, _, -, hsize, ⟨-, rfl, -⟩ | ⟨-, mdat, _, _, _, -, -, -, rfl, -⟩⟩ :=
    iterate_cases h
  · rw [saturatingAdd]
    omega
  · rw [saturatingAdd, saturatingAdd]
    omega

variable (readers bytes total trackId) in
def visitsFrom (position : ℕ) : Except String (List Visit) :=
  if _ : position < total.toNat then
    match _ : iterate readers bytes total trackId position with
    | .error error => .error error
    | .ok (next, visit) =>
      match visitsFrom next with
      | .error error => .error error
      | .ok visits => .ok (visit.toList ++ visits)
  else .ok []
termination_by total.toNat - position
decreasing_by
  have := iterate_advances ‹_› ‹_›
  omega

variable (readers bytes total trackId) in
def readSamples : Except String (List Sample) :=
  (visitsFrom readers bytes total trackId 0).map (List.flatMap Visit.samples)

/-- The size a run declares for one sample: its own entry, or the default of the track. -/
def declaredSize (trun : TrunBox) (tfhd : TfhdBox) (index : ℕ) : ℕ :=
  if trun.flags &&& flagSampleSize ≠ 0 then (trun.sampleSizes.getD index 0).toNat
  else (tfhd.defaultSampleSize.getD 0).toNat

def runOf (tfhd : TfhdBox) (trun : TrunBox) : Run where
  offset := trun.dataOffset
  sizes := (List.range trun.sampleCount.toNat).map (declaredSize trun tfhd)

def baseOf (tfhd : TfhdBox) (moofStart : ℕ) : ℕ :=
  if tfhd.flags &&& flagDefaultBaseIsMoof ≠ 0 then moofStart
  else tfhd.baseDataOffset.getD moofStart

def byteRange (s : Sample) : ℤ × ℤ := (s.start, s.finish)

/-- The walked start of a run is the declared one: an offset stays within 64 bits, and a run without
an offset is the first of its traf or follows one that stopped at the base. -/
def Anchors (base : ℕ) (prev : Option ℤ) (run : Run) : Prop :=
  match run.offset, prev with
  | some offset, _ => (offset < 0 → 0 ≤ base + offset) ∧ (0 ≤ offset → base + offset ≤ maxU64)
  | none, none => True
  | none, some stop => stop = base

def Anchored (base : ℕ) : Option ℤ → List Run → Prop
  | _, [] => True
  | prev, run :: runs =>
    (run.sizes ≠ [] → Anchors base prev run) ∧
      Anchored base (some (declaredStart base prev run + run.total)) runs

/-- A body cut into top-level boxes from a position on, each moof with its mdat behind it; the
positions of the moofs are collected. -/
inductive Layout (readers : BoxReaders) (bytes : List UInt8) (total : UInt64) :
    ℕ → List ℕ → Prop where
  | done {position : ℕ} (hend : total.toNat ≤ position) : Layout readers bytes total position []
  | plain {position headerBytes : ℕ} {header : BoxHeader} {moofs : List ℕ}
      (hin : position < total.toNat)
      (hheader : readers.header (remaining bytes total position) = some (header, headerBytes))
      (hsize : 8 ≤ header.size) (hname : header.name ≠ .moof)
      (rest : Layout readers bytes total (position + header.size) moofs) :
      Layout readers bytes total position moofs
  | fragment {position headerBytes mdatHeader : ℕ} {header mdat : BoxHeader} {moofs : List ℕ}
      (hin : position < total.toNat)
      (hheader : readers.header (remaining bytes total position) = some (header, headerBytes))
      (hsize : 8 ≤ header.size) (hname : header.name = .moof)
      (hmdat : readers.header (remaining bytes total (position + header.size)) =
        some (mdat, mdatHeader))
      (hmdatSize : 8 ≤ mdat.size) (hmdatName : mdat.name = .mdat)
      (rest : Layout readers bytes total (position + header.size + mdat.size) moofs) :
      Layout readers bytes total position (position :: moofs)

/-- The declared ranges of a visited moof: those of the traf the walk selects. -/
def Visit.Placed (trackId : UInt32) (v : Visit) : Prop :=
  ∀ traf, trafOf v.parsed.moof trackId = some traf →
    v.samples.map byteRange =
      placeRuns (baseOf traf.tfhd v.moofStart) none (traf.truns.map (runOf traf.tfhd))

def Visit.Tiled (trackId : UInt32) (v : Visit) : Prop :=
  ∀ traf, trafOf v.parsed.moof trackId = some traf →
    Contiguous (baseOf traf.tfhd v.moofStart) (v.mdatStart + v.mdatHeader : ℕ) none
      (traf.truns.map (runOf traf.tfhd)) →
    ((traf.truns.map (runOf traf.tfhd)).map Run.total).sum = v.mdatSize - v.mdatHeader →
    Tiles (v.mdatStart + v.mdatHeader : ℕ) (v.mdatStart + v.mdatSize : ℕ)
      (v.samples.map byteRange)

/-- Every run of the selected traf that has samples starts where the walk looks for it. -/
def Visit.Anchored (trackId : UInt32) (v : Visit) : Prop :=
  ∀ traf, trafOf v.parsed.moof trackId = some traf →
    SampleWalk.Anchored (baseOf traf.tfhd v.moofStart) none (traf.truns.map (runOf traf.tfhd))

variable {visits : List Visit}

structure Visit.Sound (total : UInt64) (trackId : UInt32) (v : Visit) : Prop where
  inside : v.moofStart < total.toNat
  collected : collectSamples v.parsed.moof v.moofStart trackId total.toNat = .ok v.samples

end SampleWalk

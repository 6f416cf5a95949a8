import Kithara.AnalysisArchive
import Kithara.AnalysisRoundTrip

/-! The fixed parts of an analysis file read back: its header, its tags, its layout and the frames
of its chunks. -/
namespace AnalysisArchive

open ByteReaders AnalysisBlobs

variable {W B : Type} {S : Sections W B}

theorem ensure_ok {fault : AnalysisFileError} {p : Prop} [Decidable p] {x : Unit} :
    ensure fault p = .ok x ↔ p := by
  rw [ensure]
  split <;> simp [*]

theorem validateTag_ok {value : Option String} (h : validateTag value = .ok ()) :
    value ≠ some "" ∧ (value.elim [] utf8).length ≤ fingerprintMax := by
  simp only [validateTag] at h
  split at h
  · cases h
  · next hne =>
    split at h
    · cases h
    · next hlen => exact ⟨hne, not_lt.mp hlen⟩

theorem validateFingerprint_ok {fingerprint : AnalysisFingerprint}
    (h : validateFingerprint fingerprint = .ok ()) :
    validateTag fingerprint.waveform = .ok () ∧ validateTag fingerprint.beat = .ok () := by
  simp only [validateFingerprint, bind_eq_ok] at h
  obtain ⟨_, hwaveform, hbeat⟩ := h
  exact ⟨hwaveform, hbeat⟩

theorem utf8_eq_nil {value : String} (h : (utf8 value).length = 0) : value = "" := by
  rw [← String.toByteArray_inj]
  have hdata : value.toByteArray.data.toList = [] := List.length_eq_zero_iff.mp h
  rw [Array.toList_eq_nil_iff] at hdata
  exact ByteArray.ext hdata

/-- The slot a tag is stored in. -/
def slot (value : Option String) : Bytes :=
  writeU32 (UInt32.ofNat (value.elim [] utf8).length) ++
    (value.elim [] utf8 ++ List.replicate (fingerprintMax - (value.elim [] utf8).length) 0)

theorem pushFingerprint_eq {value : Option String} (h : validateTag value = .ok ()) :
    Header.pushFingerprint value = .ok (slot value) := by
  obtain ⟨-, hlen⟩ := validateTag_ok h
  exact if_neg (not_lt.mpr hlen)

theorem slot_length {value : Option String} (h : validateTag value = .ok ()) :
    (slot value).length = 4 + fingerprintMax := by
  obtain ⟨-, hlen⟩ := validateTag_ok h
  simp only [slot, List.length_append, writeU32_length, List.length_replicate]
  omega

theorem reads_slot {value : Option String} (h : validateTag value = .ok ()) :
    Reads Header.readFingerprint (slot value) value := by
  obtain ⟨hne, hlen⟩ := validateTag_ok h
  have hslot : (value.elim [] utf8 ++
      List.replicate (fingerprintMax - (value.elim [] utf8).length) 0).length = fingerprintMax := by
    rw [List.length_append, List.length_replicate]
    omega
  have hlt : (value.elim [] utf8).length < 2 ^ 32 := lt_of_le_of_lt hlen (by decide)
  have hback : (UInt32.ofNat (value.elim [] utf8).length).toNat = (value.elim [] utf8).length :=
    UInt32.toNat_ofNat_of_lt' hlt
  have htag : Header.tagOf (value.elim [] utf8).length (value.elim [] utf8 ++
      List.replicate (fingerprintMax - (value.elim [] utf8).length) 0) = .ok value := by
    cases value with
    | none => rfl
    | some tag =>
      have hlen0 : (utf8 tag).length ≠ 0 := fun hz => hne (congrArg some (utf8_eq_nil hz))
      simp [Header.tagOf, hlen0, ofUtf8_utf8, Except.map]
  have hpadding : ((value.elim [] utf8 ++
      List.replicate (fingerprintMax - (value.elim [] utf8).length) 0).drop
        (value.elim [] utf8).length).all (· == 0) = true := by
    rw [List.drop_left, List.all_replicate]
    simp
  rw [Header.readFingerprint, slot]
  generalize UInt32.ofNat (value.elim [] utf8).length = len at hback
  refine (reads_u32 len).mapError.bind ?_
  rw [hback, ← List.append_nil (value.elim [] utf8 ++ _)]
  refine (reads_take hslot).bind ((reads_check ⟨hlen, hpadding⟩).skip ?_)
  rw [htag]
  exact reads_ofResult.mapError

namespace Header

/-- The header's bytes. -/
def bytesOf (header : Header) : Bytes :=
  writeU32 currentVersion ++ writeBool header.settled ++ List.replicate 3 0 ++
    writeU64 header.latestRevision ++ writeU32 header.sourceSampleRate.val ++
    List.replicate 4 0 ++ writeU64 header.extent ++ writeU64 header.chunkFrames.val ++
    writeU64 header.chunkCount ++ writeU64 header.indexOffset ++ writeU64 header.payloadOffset ++
    writeU64 header.payloadEnd ++ writeU64 header.latestPayloadOffset ++
    writeU64 header.latestPayloadLen ++ slot header.fingerprint.waveform ++
    slot header.fingerprint.beat

variable {header : Header}

theorem bytesOf_length (h : validateFingerprint header.fingerprint = .ok ()) :
    (bytesOf header).length = headerLen := by
  obtain ⟨hwaveform, hbeat⟩ := validateFingerprint_ok h
  simp only [bytesOf, List.length_append, writeU32_length, writeU64_length, writeBool_length,
    List.length_replicate, slot_length hwaveform, slot_length hbeat]
  rfl

theorem encode_eq (h : validateFingerprint header.fingerprint = .ok ()) :
    header.encode = .ok (bytesOf header) := by
  obtain ⟨hwaveform, hbeat⟩ := validateFingerprint_ok h
  have hlen := bytesOf_length h
  rw [bytesOf] at hlen
  simp only [encode, pushFingerprint_eq hwaveform, pushFingerprint_eq hbeat, bind, Except.bind,
    ensure, if_pos hlen, pure, Except.pure, bytesOf]

theorem reads_identity : Reads readHeaderIdentity
    (writeU32 currentVersion ++ (writeBool header.settled ++ (List.replicate 3 0 ++
      writeU64 header.latestRevision))) ⟨header.settled, header.latestRevision⟩ := by
  rw [readHeaderIdentity]
  refine (reads_u32 _).mapError.bind ((reads_check rfl).skip ((reads_bool _).mapError.bind ?_))
  refine (reads_take (List.length_replicate ..)).bind ((reads_check rfl).skip ?_)
  exact (reads_u64 _).mapError.last

theorem reads_geometry : Reads readHeaderGeometry
    (writeU32 header.sourceSampleRate.val ++ (List.replicate 4 0 ++ (writeU64 header.extent ++
      (writeU64 header.chunkFrames.val ++ writeU64 header.chunkCount))))
    ⟨header.sourceSampleRate, header.extent, header.chunkFrames, header.chunkCount⟩ := by
  have hrate : nonZeroU32 header.sourceSampleRate.val = .ok header.sourceSampleRate :=
    dif_pos header.sourceSampleRate.2
  have hframes : nonZeroU64 header.chunkFrames.val = .ok header.chunkFrames :=
    dif_pos header.chunkFrames.2
  rw [readHeaderGeometry]
  refine (reads_u32 _).mapError.bind ?_
  rw [hrate]
  refine reads_ofResult.mapError.skip ((reads_take (List.length_replicate ..)).bind
    ((reads_check rfl).skip ((reads_u64 _).mapError.bind ((reads_u64 _).mapError.bind ?_))))
  rw [hframes]
  exact reads_ofResult.mapError.skip (reads_u64 _).mapError.last

theorem reads_offsets : Reads readHeaderOffsets
    (writeU64 header.indexOffset ++ (writeU64 header.payloadOffset ++ (writeU64 header.payloadEnd ++
      (writeU64 header.latestPayloadOffset ++ writeU64 header.latestPayloadLen))))
    ⟨header.indexOffset, header.payloadOffset, header.payloadEnd, header.latestPayloadOffset,
      header.latestPayloadLen⟩ := by
  rw [readHeaderOffsets]
  exact (reads_u64 _).mapError.bind ((reads_u64 _).mapError.bind ((reads_u64 _).mapError.bind
    ((reads_u64 _).mapError.bind (reads_u64 _).mapError.last)))

theorem reads_header (h : validateFingerprint header.fingerprint = .ok ()) :
    Reads read (bytesOf header) header := by
  obtain ⟨hwaveform, hbeat⟩ := validateFingerprint_ok h
  have hsplit : bytesOf header =
      (writeU32 currentVersion ++ (writeBool header.settled ++ (List.replicate 3 0 ++
        writeU64 header.latestRevision))) ++
      ((writeU32 header.sourceSampleRate.val ++ (List.replicate 4 0 ++ (writeU64 header.extent ++
        (writeU64 header.chunkFrames.val ++ writeU64 header.chunkCount)))) ++
      ((writeU64 header.indexOffset ++ (writeU64 header.payloadOffset ++
        (writeU64 header.payloadEnd ++ (writeU64 header.latestPayloadOffset ++
          writeU64 header.latestPayloadLen)))) ++
      (slot header.fingerprint.waveform ++ slot header.fingerprint.beat))) := by
    simp only [bytesOf, List.append_assoc]
  rw [hsplit, read]
  exact reads_identity.bind (reads_geometry.bind (reads_offsets.bind
    ((reads_slot hwaveform).bind (reads_slot hbeat).last)))

theorem decode_bytesOf (h : validateFingerprint header.fingerprint = .ok ()) :
    decode (bytesOf header) = .ok header := whole_of_reads (reads_header h)

end Header

end AnalysisArchive

import Kithara.ArchiveHeader

/-! One generation of an analysis file: what a publication's file holds, how it parses, and how an
accepted update turns the file of one publication into the file of the next. -/
namespace AnalysisArchive

open ByteReaders AnalysisBlobs
open CheckedArithmetic (divCeil mul_lt_of_lt_divCeil)

variable {W B : Type} {S : Sections W B} {spec : AnalysisFileSpec}

namespace AnalysisFileSpec

theorem layout_eq (spec : AnalysisFileSpec) :
    spec.layout = ⟨divCeil spec.extent.toNat spec.chunkFrames.val.toNat, headerLen,
      headerLen + divCeil spec.extent.toNat spec.chunkFrames.val.toNat⟩ := by
  have h := spec.layout_valid
  simp only [layoutOf] at h
  split at h
  · cases h
  · have hlayout := Except.ok.inj h
    rw [← hlayout, indexEntryLen, Nat.mul_one]

theorem indexOffset_eq (spec : AnalysisFileSpec) : spec.layout.indexOffset = headerLen := by
  rw [spec.layout_eq]

theorem payloadOffset_eq (spec : AnalysisFileSpec) :
    spec.layout.payloadOffset = headerLen + spec.layout.chunkCount := by
  rw [spec.layout_eq]

theorem chunkCount_le (spec : AnalysisFileSpec) : spec.layout.chunkCount ≤ maxPrealloc := by
  have h := spec.layout_valid
  simp only [layoutOf] at h
  split at h
  · cases h
  · next hle =>
    rw [spec.layout_eq]
    exact not_lt.mp hle

theorem chunkFrames_pos (spec : AnalysisFileSpec) : 0 < spec.chunkFrames.val.toNat := by
  have hne := spec.chunkFrames.2
  rw [← UInt64.toNat_inj.ne] at hne
  exact Nat.pos_of_ne_zero hne

theorem new_self (spec : AnalysisFileSpec) :
    AnalysisFileSpec.new spec.sourceSampleRate spec.extent spec.chunkFrames spec.fingerprint =
      .ok spec := by
  rw [AnalysisFileSpec.new]
  split
  · next e he =>
    rw [spec.fingerprint_valid] at he
    cases he
  · split
    · next e he =>
      rw [spec.layout_valid] at he
      cases he
    · next layout he =>
      have hlayout : spec.layout = layout := by
        rw [spec.layout_valid] at he
        exact Except.ok.inj he
      subst hlayout
      rfl

end AnalysisFileSpec

/-- The first frame of a chunk and the one past its last. -/
def chunk (spec : AnalysisFileSpec) (id : ℕ) : ℕ × ℕ :=
  (id * spec.chunkFrames.val.toNat,
    min (id * spec.chunkFrames.val.toNat + spec.chunkFrames.val.toNat) spec.extent.toNat)

theorem chunk_start_lt {id : ℕ} (h : id < spec.layout.chunkCount) :
    id * spec.chunkFrames.val.toNat < spec.extent.toNat := by
  rw [spec.layout_eq] at h
  exact mul_lt_of_lt_divCeil h

theorem chunkRange_eq {id : ℕ} (h : id < spec.layout.chunkCount) :
    chunkRange spec id = .ok (chunk spec id) := by
  have hstart := chunk_start_lt h
  have hpos := spec.chunkFrames_pos
  have hextent := spec.extent.toNat_lt
  simp only [chunkRange, chunk]
  generalize id * spec.chunkFrames.val.toNat = start at hstart
  rw [if_neg (by omega), if_neg (by omega)]
  have hmin : min (min (start + spec.chunkFrames.val.toNat) (2 ^ 64 - 1)) spec.extent.toNat =
      min (start + spec.chunkFrames.val.toNat) spec.extent.toNat := by omega
  rw [hmin]

/-- Whether a publication covers a chunk. -/
def covered (spec : AnalysisFileSpec) (analysis : TrackAnalysis W B) (id : ℕ) : Bool :=
  analysis.coverage.covers (chunk spec id).1 (chunk spec id).2

theorem covered_iff {analysis : TrackAnalysis W B} {id : ℕ} :
    covered spec analysis id = true ↔
      ∀ frame, (chunk spec id).1 ≤ frame → frame < (chunk spec id).2 →
        frame ∈ analysis.coverage.set := Coverage.covers_iff

/-- The index entries of the chunks from one on. -/
def bitsFrom (spec : AnalysisFileSpec) (analysis : TrackAnalysis W B) (id n : ℕ) : List Bool :=
  (List.range' id n).map (covered spec analysis)

def bits (spec : AnalysisFileSpec) (analysis : TrackAnalysis W B) : List Bool :=
  bitsFrom spec analysis 0 spec.layout.chunkCount

@[simp] theorem bits_length (analysis : TrackAnalysis W B) :
    (bits spec analysis).length = spec.layout.chunkCount := by
  simp [bits, bitsFrom]

theorem bits_getElem (analysis : TrackAnalysis W B) {k : ℕ} (hk : k < (bits spec analysis).length) :
    (bits spec analysis)[k] = covered spec analysis k := by
  simp [bits, bitsFrom]

theorem bitsFrom_succ (analysis : TrackAnalysis W B) (id n : ℕ) :
    bitsFrom spec analysis id (n + 1) =
      covered spec analysis id :: bitsFrom spec analysis (id + 1) n := rfl

def entryByte (entry : Bool) : UInt8 := if entry then 1 else 0

theorem decodeEntry_entryByte (entry : Bool) : decodeEntry (entryByte entry) = .ok entry := by
  cases entry <;> rfl

theorem decodeEntries (entries : List Bool) :
    (entries.map entryByte).mapM decodeEntry = .ok entries := by
  induction entries with
  | nil => rfl
  | cons entry rest ih =>
    rw [List.map_cons, List.mapM_cons, decodeEntry_entryByte, ih]
    rfl

theorem validateIndexCoverage_bits {analysis : TrackAnalysis W B} {id n : ℕ}
    (h : id + n ≤ spec.layout.chunkCount) :
    validateIndexCoverage spec analysis id (bitsFrom spec analysis id n) = .ok () := by
  induction n generalizing id with
  | zero => rfl
  | succ n ih =>
    have hchunk : chunkRange spec id = .ok (chunk spec id) := chunkRange_eq (by omega)
    rw [bitsFrom_succ, validateIndexCoverage, hchunk]
    change (if ((!covered spec analysis id) != !covered spec analysis id) = true then
      (Except.error .corrupt : Except AnalysisFileError Unit) else
        validateIndexCoverage spec analysis (id + 1) (bitsFrom spec analysis (id + 1) n)) = .ok ()
    rw [bne_self_eq_false, if_neg Bool.false_ne_true]
    exact ih (by omega)

theorem slice_middle {before middle after : Bytes} {start stop : ℕ} (hstart : before.length = start)
    (hstop : start + middle.length = stop) :
    slice (before ++ (middle ++ after)) start stop = .ok middle := by
  subst hstart hstop
  rw [slice, if_pos ⟨Nat.le_add_right _ _, by simp⟩, List.drop_left, Nat.add_sub_cancel_left,
    List.take_left]

theorem writeAt_middle {before old new after : Bytes} {offset : ℕ} (hoffset : before.length = offset)
    (hlen : old.length = new.length) :
    writeAt (before ++ (old ++ after)) ⟨offset, new⟩ = before ++ (new ++ after) := by
  subst hoffset
  have hfits : before.length + new.length - (before ++ (old ++ after)).length = 0 := by
    simp only [List.length_append]
    omega
  simp only [writeAt, hfits, List.replicate_zero, List.append_nil, List.take_left]
  rw [← List.drop_drop, List.drop_left, ← hlen, List.drop_left, List.append_assoc]

theorem writeAt_end {before new : Bytes} {offset : ℕ} (hoffset : before.length = offset) :
    writeAt before ⟨offset, new⟩ = before ++ new := by
  subst hoffset
  have hgrow : before.length + new.length - before.length = new.length := by omega
  simp [writeAt, hgrow]

theorem indexPatches_cons {analysis : TrackAnalysis W B} {id : ℕ} {held : Bool} {rest : List Bool}
    (h : id < spec.layout.chunkCount) :
    indexPatches spec analysis id (held :: rest) =
      if held && !covered spec analysis id then .error (.coverageRegression id)
      else (indexPatches spec analysis (id + 1) rest).map fun later =>
        if !held && covered spec analysis id then ⟨headerLen + id, [1]⟩ :: later else later := by
  rw [indexPatches, chunkRange_eq h, spec.indexOffset_eq, indexEntryLen, Nat.mul_one]
  change (if (held && !covered spec analysis id) = true then _ else _) = _
  split
  · rfl
  · cases indexPatches spec analysis (id + 1) rest with
    | error e => rfl
    | ok later =>
      change (if (!held && covered spec analysis id) = true then _ else _) = _
      simp only [Except.map]
      split <;> rfl

/-- The patches of the entries from one on: none is lost, and they write the new index there. -/
theorem indexPatches_ok {analysis : TrackAnalysis W B} {id : ℕ} {held : List Bool}
    {patches : List AnalysisFileBytes} (hid : id + held.length ≤ spec.layout.chunkCount)
    (h : indexPatches spec analysis id held = .ok patches) :
    (∀ k (hk : k < held.length), held[k] = true → covered spec analysis (id + k) = true) ∧
      ∀ before after : Bytes, before.length = headerLen + id →
        patches.foldl writeAt (before ++ (held.map entryByte ++ after)) =
          before ++ ((bitsFrom spec analysis id held.length).map entryByte ++ after) := by
  induction held generalizing id patches with
  | nil =>
    cases h
    exact ⟨fun k hk => absurd hk (Nat.not_lt_zero k), fun _ _ _ => rfl⟩
  | cons entry rest ih =>
    have hlt : id < spec.layout.chunkCount := by
      rw [List.length_cons] at hid
      omega
    have hrest : id + 1 + rest.length ≤ spec.layout.chunkCount := by
      rw [List.length_cons] at hid
      omega
    rw [indexPatches_cons hlt] at h
    split at h
    · cases h
    · next hkept =>
      obtain ⟨later, hlater⟩ : ∃ later, indexPatches spec analysis (id + 1) rest = .ok later := by
        cases hl : indexPatches spec analysis (id + 1) rest with
        | error e =>
          rw [hl] at h
          cases h
        | ok later => exact ⟨later, rfl⟩
      obtain ⟨hheld, hwrites⟩ := ih hrest hlater
      rw [hlater] at h
      have hpatches := Except.ok.inj h
      refine ⟨?_, fun before after hbefore => ?_⟩
      · intro k hk hset
        cases k with
        | zero =>
          rw [List.getElem_cons_zero] at hset
          rw [hset, Bool.true_and, Bool.not_eq_true, Bool.not_eq_false'] at hkept
          exact hkept
        | succ k =>
          have hcovered := hheld k (Nat.lt_of_succ_lt_succ hk) hset
          rwa [Nat.add_right_comm] at hcovered
      · have hnext := hwrites (before ++ [entryByte (covered spec analysis id)]) after
          (by rw [List.length_append, List.length_singleton]; omega)
        rw [List.append_assoc] at hnext
        rw [← hpatches, List.length_cons, bitsFrom_succ, List.map_cons, List.map_cons]
        change (if (!entry && covered spec analysis id) = true then
          (⟨headerLen + id, [1]⟩ :: later : List AnalysisFileBytes) else later).foldl writeAt
            (before ++ ([entryByte entry] ++ (rest.map entryByte ++ after))) = _
        split
        · next hnew =>
          rw [Bool.and_eq_true] at hnew
          have hput : writeAt (before ++ ([entryByte entry] ++ (rest.map entryByte ++ after)))
              ⟨headerLen + id, [1]⟩ = before ++ ([1] ++ (rest.map entryByte ++ after)) :=
            writeAt_middle hbefore (by simp)
          rw [hnew.2] at hnext ⊢
          rw [List.foldl_cons, hput]
          rw [List.append_assoc] at hnext
          exact hnext
        · next hold =>
          have hsame : entry = covered spec analysis id := by
            cases entry <;> cases hc : covered spec analysis id <;> simp_all
          rw [hsame, hnext, List.append_assoc]
          rfl

theorem indexPatches_kept {analysis : TrackAnalysis W B} {id : ℕ} {held : List Bool}
    (hid : id + held.length ≤ spec.layout.chunkCount)
    (h : ∀ k (hk : k < held.length), held[k] = true → covered spec analysis (id + k) = true) :
    ∃ patches, indexPatches spec analysis id held = .ok patches := by
  induction held generalizing id with
  | nil => exact ⟨[], rfl⟩
  | cons entry rest ih =>
    rw [List.length_cons] at hid
    have htail : ∀ k (hk : k < rest.length), rest[k] = true →
        covered spec analysis (id + 1 + k) = true := by
      intro k hk hset
      have hcovered := h (k + 1) (Nat.succ_lt_succ hk) hset
      rwa [← Nat.add_assoc, Nat.add_right_comm] at hcovered
    obtain ⟨later, hlater⟩ := ih (by omega) htail
    have hkept : ¬ ((entry && !covered spec analysis id) = true) := by
      intro hlost
      rw [Bool.and_eq_true, Bool.not_eq_true'] at hlost
      have hcovered := h 0 (Nat.succ_pos _) hlost.1
      rw [Nat.add_zero, hlost.2] at hcovered
      cases hcovered
    rw [indexPatches_cons (by omega), if_neg hkept, hlater]
    exact ⟨_, rfl⟩

def headerFor (spec : AnalysisFileSpec) (analysis : TrackAnalysis W B) (payloadLen : ℕ) : Header :=
  (Header.base spec).restate spec analysis payloadLen

def fixedBytes (spec : AnalysisFileSpec) (analysis : TrackAnalysis W B) (payloadLen : ℕ) : Bytes :=
  Header.bytesOf (headerFor spec analysis payloadLen) ++ (bits spec analysis).map entryByte

def fileBytes (spec : AnalysisFileSpec) (analysis : TrackAnalysis W B) (payload : Bytes) : Bytes :=
  fixedBytes spec analysis payload.length ++ payload

/-- A publication the file takes, and its bytes. -/
structure Accepted (spec : AnalysisFileSpec) (progress : AnalysisProgress S) (payload : Bytes) :
    Prop where
  valid : validateAnalysis spec progress.analysis = .ok ()
  resume : resumeMatches spec progress = true
  written : progress.writeTo = .ok payload
  fits : spec.layout.payloadOffset + payload.length < 2 ^ 64

theorem headerBytes_length (analysis : TrackAnalysis W B) (payloadLen : ℕ) :
    (Header.bytesOf (headerFor spec analysis payloadLen)).length = headerLen :=
  Header.bytesOf_length spec.fingerprint_valid

theorem fixedBytes_length (analysis : TrackAnalysis W B) (payloadLen : ℕ) :
    (fixedBytes spec analysis payloadLen).length = spec.layout.payloadOffset := by
  rw [fixedBytes, List.length_append, headerBytes_length, List.length_map, bits_length,
    spec.payloadOffset_eq]

theorem fileBytes_length (analysis : TrackAnalysis W B) (payload : Bytes) :
    (fileBytes spec analysis payload).length = spec.layout.payloadOffset + payload.length := by
  rw [fileBytes, List.length_append, fixedBytes_length]

theorem validateAnalysis_ok {analysis : TrackAnalysis W B}
    (h : validateAnalysis spec analysis = .ok ()) :
    analysis.sourceSampleRate = spec.sourceSampleRate ∧ analysis.extent = some spec.extent ∧
      analysis.fingerprint = spec.fingerprint ∧
        ∀ run ∈ analysis.coverage.set.runs, run.2 ≤ spec.extent.toNat := by
  simp only [validateAnalysis] at h
  split at h
  · cases h
  · next hsame =>
    simp only [not_or, not_not, not_exists, not_and, not_lt, gt_iff_lt] at hsame
    exact hsame

theorem writeTo_length_pos {progress : AnalysisProgress S} {payload : Bytes}
    (h : progress.writeTo = .ok payload) : 0 < payload.length := by
  simp only [AnalysisProgress.writeTo, bind_eq_ok] at h
  obtain ⟨stored, -, hbytes⟩ := h
  cases hbytes
  simp only [List.length_append, writeU32_length]
  omega

namespace Accepted

variable {progress : AnalysisProgress S} {payload : Bytes}

theorem header_numbers (h : Accepted spec progress payload) :
    (headerFor spec progress.analysis payload.length).chunkCount.toNat = spec.layout.chunkCount ∧
    (headerFor spec progress.analysis payload.length).indexOffset.toNat = headerLen ∧
    (headerFor spec progress.analysis payload.length).payloadOffset.toNat =
      spec.layout.payloadOffset ∧
    (headerFor spec progress.analysis payload.length).payloadEnd.toNat =
      spec.layout.payloadOffset + payload.length ∧
    (headerFor spec progress.analysis payload.length).latestPayloadLen.toNat = payload.length := by
  have hcount := spec.chunkCount_le
  have hoffset := spec.payloadOffset_eq
  have hfits := h.fits
  have hmax : maxPrealloc = 4096 := rfl
  have hlenH : headerLen = 2144 := rfl
  have hindex := spec.indexOffset_eq
  have hcountLt : spec.layout.chunkCount < 2 ^ 64 := by omega
  have hindexLt : headerLen < 2 ^ 64 := by omega
  have hoffsetLt : spec.layout.payloadOffset < 2 ^ 64 := by omega
  have hpayloadLt : payload.length < 2 ^ 64 := by omega
  have hindex64 := UInt64.toNat_ofNat_of_lt' hindexLt
  rw [← hindex] at hindex64
  exact ⟨UInt64.toNat_ofNat_of_lt' hcountLt, hindex64.trans hindex,
    UInt64.toNat_ofNat_of_lt' hoffsetLt, UInt64.toNat_ofNat_of_lt' hfits,
    UInt64.toNat_ofNat_of_lt' hpayloadLt⟩

theorem header_valid (h : Accepted spec progress payload) :
    (headerFor spec progress.analysis payload.length).validate spec.layout
      (fileBytes spec progress.analysis payload).length = .ok () := by
  obtain ⟨hcount, hindex, hoffset, hend, hlen⟩ := h.header_numbers
  have hfits := h.fits
  have hpos := writeTo_length_pos h.written
  have hsame : (headerFor spec progress.analysis payload.length).latestPayloadOffset =
      (headerFor spec progress.analysis payload.length).payloadOffset := rfl
  generalize headerFor spec progress.analysis payload.length = header at *
  have hback : ¬ header.payloadEnd < header.payloadOffset := by
    rw [UInt64.lt_iff_toNat_lt, hend, hoffset]
    omega
  have hne : header.latestPayloadLen ≠ 0 := by
    intro hz
    rw [hz] at hlen
    exact hpos.ne hlen
  simp only [Header.validate, hsame, hcount, hindex, hoffset, hend, hlen, spec.indexOffset_eq,
    fileBytes_length]
  rw [if_neg (by simp), if_neg (not_le.mpr hfits), if_neg]
  rintro (hbad | hbad | hbad | hbad | hbad)
  · exact hbad rfl
  · exact hback hbad
  · exact hne hbad
  · exact hbad rfl
  · exact hbad rfl

theorem header_read (analysis : TrackAnalysis W B) (payload : Bytes) :
    slice (fileBytes spec analysis payload) 0 headerLen =
      .ok (Header.bytesOf (headerFor spec analysis payload.length)) := by
  have hlen : 0 + (Header.bytesOf (headerFor spec analysis payload.length)).length = headerLen := by
    rw [headerBytes_length, Nat.zero_add]
  have hslice : slice ([] ++ (Header.bytesOf (headerFor spec analysis payload.length) ++
      ((bits spec analysis).map entryByte ++ payload))) 0 headerLen = _ := slice_middle rfl hlen
  rwa [List.nil_append, ← List.append_assoc] at hslice

theorem index_read (h : Accepted spec progress payload) :
    AnalysisFile.readIndex (headerFor spec progress.analysis payload.length)
      (fileBytes spec progress.analysis payload) = .ok (bits spec progress.analysis) := by
  obtain ⟨hcount, hindex, hoffset, -, -⟩ := h.header_numbers
  have hlen : ((bits spec progress.analysis).map entryByte).length = spec.layout.chunkCount := by
    rw [List.length_map, bits_length]
  have hstop : headerLen + ((bits spec progress.analysis).map entryByte).length =
      spec.layout.payloadOffset := by
    rw [hlen, spec.payloadOffset_eq]
  have hslice : slice (Header.bytesOf (headerFor spec progress.analysis payload.length) ++
      ((bits spec progress.analysis).map entryByte ++ payload)) headerLen
        spec.layout.payloadOffset = _ := slice_middle (headerBytes_length _ _) hstop
  have hmax : min (spec.layout.chunkCount * indexEntryLen) (2 ^ 64 - 1) =
      spec.layout.chunkCount := by
    have hcount := spec.chunkCount_le
    have hmax : maxPrealloc = 4096 := rfl
    rw [indexEntryLen]
    omega
  have hensure : ensure .corrupt (((bits spec progress.analysis).map entryByte).length =
      spec.layout.chunkCount) = .ok () := ensure_ok.mpr hlen
  rw [AnalysisFile.readIndex, hindex, hoffset, hcount, fileBytes, fixedBytes, List.append_assoc,
    hslice, hmax]
  change (ensure .corrupt _ >>= fun _ => _) = _
  rw [hensure]
  exact decodeEntries _

theorem latest_read (h : Accepted spec progress payload) :
    AnalysisFile.readLatest (headerFor spec progress.analysis payload.length)
      (fileBytes spec progress.analysis payload) spec =
        if untagged progress.analysis then .error (.payload .fingerprint)
        else .ok progress.restored := by
  obtain ⟨-, -, hoffset, -, hlen⟩ := h.header_numbers
  have hfits := h.fits
  have hslice : slice (fixedBytes spec progress.analysis payload.length ++ (payload ++ []))
      spec.layout.payloadOffset (spec.layout.payloadOffset + payload.length) = _ :=
    slice_middle (fixedBytes_length _ _) rfl
  rw [List.append_nil] at hslice
  have htry := AnalysisProgress.tryFrom_writeTo h.written (by omega)
  rw [(validateAnalysis_ok h.valid).2.2.1] at htry
  have hoffset' : (headerFor spec progress.analysis payload.length).latestPayloadOffset.toNat =
      spec.layout.payloadOffset := hoffset
  rw [AnalysisFile.readLatest, hoffset', hlen]
  have hvalid : validateAnalysis spec progress.restored.analysis = .ok () := h.valid
  have hmatches : resumeMatches spec progress.restored = true := h.resume
  have hsame : progress.restored.analysis.revision =
      (headerFor spec progress.analysis payload.length).latestRevision ∧
        progress.restored.analysis.settled =
          (headerFor spec progress.analysis payload.length).settled := ⟨rfl, rfl⟩
  simp only [ensure, if_pos hfits, fileBytes, hslice, bind, Except.bind, htry]
  cases untagged progress.analysis with
  | true => rfl
  | false =>
    simp only [Bool.false_eq_true, if_false, Except.mapError, hvalid, if_pos hsame, hmatches]
    rfl

theorem parse_eq (h : Accepted spec progress payload) :
    AnalysisFile.parse (fileBytes spec progress.analysis payload) spec.fingerprint =
      if untagged progress.analysis then .error (.payload .fingerprint)
      else .ok ⟨spec, progress.restored, headerFor spec progress.analysis payload.length,
        bits spec progress.analysis⟩ := by
  have hdecode : Header.decode (Header.bytesOf (headerFor spec progress.analysis payload.length)) =
      .ok (headerFor spec progress.analysis payload.length) :=
    Header.decode_bytesOf spec.fingerprint_valid
  have hspec : AnalysisFileSpec.new
      (headerFor spec progress.analysis payload.length).sourceSampleRate
      (headerFor spec progress.analysis payload.length).extent
      (headerFor spec progress.analysis payload.length).chunkFrames
      (headerFor spec progress.analysis payload.length).fingerprint = .ok spec := spec.new_self
  have hfingerprint : ensure .config ((headerFor spec progress.analysis payload.length).fingerprint =
      spec.fingerprint) = .ok () := ensure_ok.mpr rfl
  have hentries : validateIndexCoverage spec progress.restored.analysis 0
      (bitsFrom spec progress.restored.analysis 0 spec.layout.chunkCount) = .ok () :=
    validateIndexCoverage_bits (Nat.zero_add _).le
  have hcovers : validateIndexCoverage spec progress.restored.analysis 0
      (bits spec progress.analysis) = .ok () := hentries
  simp only [AnalysisFile.parse, bind, Except.bind, header_read, hdecode, hspec, hfingerprint,
    h.header_valid, h.index_read, h.latest_read]
  cases untagged progress.analysis with
  | true => rfl
  | false =>
    simp only [Bool.false_eq_true, if_false, hcovers]
    rfl

end Accepted

/-- The payload, the patches of the entries and the header, over fixed bytes that hold the entries
so far, leave the file of the publication. -/
theorem apply_writes {analysis : TrackAnalysis W B} {before payload : Bytes} {held : List Bool}
    {patches : List AnalysisFileBytes} (hbefore : before.length = headerLen)
    (hheld : held.length = spec.layout.chunkCount)
    (h : indexPatches spec analysis 0 held = .ok patches) :
    ((patches ++ [(⟨0, Header.bytesOf (headerFor spec analysis payload.length)⟩ :
      AnalysisFileBytes)]).foldl writeAt
      (writeAt (before ++ held.map entryByte) ⟨spec.layout.payloadOffset, payload⟩)).take
        (spec.layout.payloadOffset + payload.length) = fileBytes spec analysis payload := by
  have hfixed : (before ++ held.map entryByte).length = spec.layout.payloadOffset := by
    rw [List.length_append, List.length_map, hbefore, hheld, spec.payloadOffset_eq]
  have hentries := (indexPatches_ok (by omega) h).2 before payload hbefore
  have hheader : writeAt ([] ++ (before ++ ((bits spec analysis).map entryByte ++ payload)))
      ⟨0, Header.bytesOf (headerFor spec analysis payload.length)⟩ =
        [] ++ (Header.bytesOf (headerFor spec analysis payload.length) ++
          ((bits spec analysis).map entryByte ++ payload)) :=
    writeAt_middle rfl (by rw [hbefore, headerBytes_length])
  have hlen : (fileBytes spec analysis payload).length = _ := fileBytes_length analysis payload
  rw [List.foldl_append, writeAt_end hfixed, List.append_assoc, hentries, hheld]
  rw [List.nil_append, List.nil_append] at hheader
  change (writeAt (before ++ ((bits spec analysis).map entryByte ++ payload)) _).take _ = _
  rw [hheader, ← List.append_assoc]
  change (fileBytes spec analysis payload).take _ = _
  rw [← hlen, List.take_length]

theorem buildUpdate_eq_ok {existing : Option (AnalysisFile S)} {progress : AnalysisProgress S}
    {update : AnalysisFileUpdate} :
    buildUpdate spec existing progress = .ok update ↔
      ∃ header held initial payload patches encoded,
        startingState spec existing progress.analysis = .ok (header, held, initial) ∧
        Accepted spec progress payload ∧
        indexPatches spec progress.analysis 0 held = .ok patches ∧
        (header.restate spec progress.analysis payload.length).encode = .ok encoded ∧
        update = ⟨⟨spec.layout.payloadOffset, payload⟩, initial, patches ++ [⟨0, encoded⟩],
          spec.layout.payloadOffset + payload.length⟩ := by
  simp only [buildUpdate, bind_eq_ok, mapError_eq_ok, ensure_ok]
  constructor
  · rintro ⟨_, hvalid, _, -, _, hresume, ⟨header, held, initial⟩, hstate, payload, hwritten, _,
      hfits, patches, hpatches, encoded, hencoded, hupdate⟩
    exact ⟨header, held, initial, payload, patches, encoded, hstate,
      ⟨hvalid, hresume, hwritten, hfits⟩, hpatches, hencoded, (Except.ok.inj hupdate).symm⟩
  · rintro ⟨header, held, initial, payload, patches, encoded, hstate, haccepted, hpatches, hencoded,
      rfl⟩
    exact ⟨(), haccepted.valid, (), progress.validateResume_ok, (), haccepted.resume,
      (header, held, initial), hstate, payload, haccepted.written, (), haccepted.fits, patches,
      hpatches, encoded, hencoded, rfl⟩

/-- A new file starts from the bare header and an index with no entry set. -/
theorem stateForCreate_eq (spec : AnalysisFileSpec) :
    stateForCreate spec = .ok (Header.base spec, List.replicate spec.layout.chunkCount false,
      some (Header.bytesOf (Header.base spec) ++
        (List.replicate spec.layout.chunkCount false).map entryByte)) := by
  have hbase : (Header.base spec).encode = .ok (Header.bytesOf (Header.base spec)) :=
    Header.encode_eq spec.fingerprint_valid
  have hlen : (Header.bytesOf (Header.base spec)).length = headerLen :=
    Header.bytesOf_length spec.fingerprint_valid
  have hzeros : List.replicate (spec.layout.payloadOffset - headerLen) (0 : UInt8) =
      (List.replicate spec.layout.chunkCount false).map entryByte := by
    rw [spec.payloadOffset_eq, Nat.add_sub_cancel_left, List.map_replicate]
    rfl
  rw [stateForCreate, hbase]
  change Except.ok _ = _
  rw [hlen, hzeros]

theorem create_applied {progress : AnalysisProgress S} {update : AnalysisFileUpdate}
    (h : AnalysisFile.create spec progress = .ok update) :
    ∃ payload, Accepted spec progress payload ∧
      update.apply [] = fileBytes spec progress.analysis payload := by
  obtain ⟨header, held, initial, payload, patches, encoded, hstate, haccepted, hpatches, hencoded,
    rfl⟩ := buildUpdate_eq_ok.mp h
  have hlen : (Header.bytesOf (Header.base spec)).length = headerLen :=
    Header.bytesOf_length spec.fingerprint_valid
  cases (stateForCreate_eq spec).symm.trans hstate
  have hheader : (headerFor spec progress.analysis payload.length).encode =
      .ok (Header.bytesOf (headerFor spec progress.analysis payload.length)) :=
    Header.encode_eq spec.fingerprint_valid
  cases hheader.symm.trans hencoded
  refine ⟨payload, haccepted, ?_⟩
  rw [AnalysisFileUpdate.apply, Option.getD_some]
  exact apply_writes hlen (List.length_replicate ..) hpatches

/-- The file of a publication, parsed. -/
def fileOf (spec : AnalysisFileSpec) (progress : AnalysisProgress S) (payloadLen : ℕ) :
    AnalysisFile S :=
  ⟨spec, progress, headerFor spec progress.analysis payloadLen, bits spec progress.analysis⟩

theorem stateForUpdate_eq_ok {progress : AnalysisProgress S} {analysis : TrackAnalysis W B}
    {payloadLen : ℕ} {state : Header × List Bool} :
    stateForUpdate (fileOf spec progress payloadLen) analysis = .ok state ↔
      progress.analysis.revision < analysis.revision ∧
        (progress.analysis.settled = true → analysis.settled = true) ∧
          state = (headerFor spec progress.analysis payloadLen, bits spec progress.analysis) := by
  have hrevision : (fileOf spec progress payloadLen).header.latestRevision =
      progress.analysis.revision := rfl
  have hsettled : (fileOf spec progress payloadLen).header.settled = progress.analysis.settled := rfl
  rw [stateForUpdate, hrevision, hsettled]
  split
  · next hstale =>
    simp only [reduceCtorEq, false_iff, not_and]
    exact fun hlt => absurd hlt (UInt64.not_lt.mpr hstale)
  · next hnewer =>
    rw [UInt64.not_le] at hnewer
    split
    · next hunsettled =>
      rw [Bool.and_eq_true, Bool.not_eq_true'] at hunsettled
      simp [hunsettled]
    · next hkept =>
      have hsettles : progress.analysis.settled = true → analysis.settled = true := by
        intro hs
        rwa [hs, Bool.true_and, Bool.not_eq_true, Bool.not_eq_false'] at hkept
      rw [Except.ok.injEq]
      exact ⟨fun h => ⟨hnewer, hsettles, h.symm⟩, fun h => h.2.2.symm⟩

theorem update_applied {progress next : AnalysisProgress S} {payloadLen : ℕ}
    {update : AnalysisFileUpdate}
    (h : (fileOf spec progress payloadLen).update next = .ok update) :
    ∃ following, Accepted spec next following ∧
      (∀ payload : Bytes, payload.length = payloadLen →
        update.apply (fileBytes spec progress.analysis payload) =
          fileBytes spec next.analysis following) ∧
      progress.analysis.revision < next.analysis.revision ∧
      (progress.analysis.settled = true → next.analysis.settled = true) ∧
      ∀ id < spec.layout.chunkCount, covered spec progress.analysis id = true →
        covered spec next.analysis id = true := by
  have hbuilt : buildUpdate spec (some (fileOf spec progress payloadLen)) next = .ok update := h
  obtain ⟨header, held, initial, following, patches, encoded, hstate, haccepted, hpatches,
    hencoded, rfl⟩ := buildUpdate_eq_ok.mp hbuilt
  obtain ⟨state, hstate, hparts⟩ := map_eq_ok.mp hstate
  obtain ⟨hnewer, hsettles, hsame⟩ := stateForUpdate_eq_ok.mp hstate
  subst hsame
  cases hparts
  have hheader : (headerFor spec next.analysis following.length).encode =
      .ok (Header.bytesOf (headerFor spec next.analysis following.length)) :=
    Header.encode_eq spec.fingerprint_valid
  cases hheader.symm.trans hencoded
  have hkept := (indexPatches_ok (by rw [bits_length, Nat.zero_add]) hpatches).1
  refine ⟨following, haccepted, fun payload hlen => ?_, hnewer, hsettles, fun id hid hcovered => ?_⟩
  · have htake : (fileBytes spec progress.analysis payload).take spec.layout.payloadOffset =
        fixedBytes spec progress.analysis payload.length := by
      rw [fileBytes]
      exact List.take_left' (fixedBytes_length _ _)
    simp only [AnalysisFileUpdate.apply, Option.getD_none, htake, fixedBytes]
    exact apply_writes (headerBytes_length _ _) (bits_length _) hpatches
  · have hlt : id < (bits spec progress.analysis).length := by rwa [bits_length]
    have hheld := hkept id hlt (by rwa [bits_getElem _ hlt])
    rwa [Nat.zero_add] at hheld

/-- The publication does not belong in the file: another rate, extent, fingerprint or chunk size,
or frames past the extent. -/
def Drifted (spec : AnalysisFileSpec) (progress : AnalysisProgress S) : Prop :=
  progress.analysis.sourceSampleRate ≠ spec.sourceSampleRate ∨
    progress.analysis.extent ≠ some spec.extent ∨
    progress.analysis.fingerprint ≠ spec.fingerprint ∨
    (∃ frame ∈ progress.analysis.coverage.set, spec.extent.toNat ≤ frame) ∨
    ∃ resume ∈ progress.resume, resume.chunkFrames ≠ spec.chunkFrames

/-- Some run ends past the extent exactly when some covered frame is past it. -/
theorem run_past_iff {coverage : Coverage} {extent : ℕ} :
    (∃ run ∈ coverage.set.runs, run.2 > extent) ↔ ∃ frame ∈ coverage.set, extent ≤ frame := by
  constructor
  · rintro ⟨run, hrun, hpast⟩
    have hlt := coverage.set.canonical.1 run hrun
    exact ⟨run.2 - 1, ⟨run, hrun, by omega, by omega⟩, by omega⟩
  · rintro ⟨frame, ⟨run, hrun, -, hend⟩, hframe⟩
    exact ⟨run, hrun, by omega⟩

theorem drifted_iff {progress : AnalysisProgress S} :
    Drifted spec progress ↔
      validateAnalysis spec progress.analysis ≠ .ok () ∨ resumeMatches spec progress = false := by
  have hresume : resumeMatches spec progress = false ↔
      ∃ resume ∈ progress.resume, resume.chunkFrames ≠ spec.chunkFrames := by
    rw [resumeMatches]
    cases progress.resume <;> simp
  have hvalid : validateAnalysis spec progress.analysis ≠ .ok () ↔
      (progress.analysis.sourceSampleRate ≠ spec.sourceSampleRate ∨
        progress.analysis.extent ≠ some spec.extent ∨
        progress.analysis.fingerprint ≠ spec.fingerprint ∨
        ∃ run ∈ progress.analysis.coverage.set.runs, run.2 > spec.extent.toNat) := by
    rw [validateAnalysis]
    split
    · next hdrift => exact iff_of_true (by simp) hdrift
    · next hsame => exact iff_of_false (not_not.mpr rfl) hsame
  rw [Drifted, hresume, hvalid, ← run_past_iff]
  simp only [or_assoc]

/-- Why a file refuses a publication. -/
def Refused (spec : AnalysisFileSpec) (latest progress : AnalysisProgress S) : Prop :=
  progress.analysis.revision ≤ latest.analysis.revision ∨
    (latest.analysis.settled = true ∧ progress.analysis.settled = false) ∨
    Drifted spec progress ∨
    ∃ id < spec.layout.chunkCount, covered spec latest.analysis id = true ∧
      covered spec progress.analysis id = false

theorem update_of_not_refused {progress next : AnalysisProgress S} {payloadLen : ℕ}
    {payload : Bytes} (hwritten : next.writeTo = .ok payload)
    (hfits : spec.layout.payloadOffset + payload.length < 2 ^ 64)
    (h : ¬ Refused spec progress next) :
    ∃ update, (fileOf spec progress payloadLen).update next = .ok update := by
  simp only [Refused, drifted_iff, not_or, not_and, not_exists, not_not, Bool.not_eq_false] at h
  obtain ⟨hnewer, hsettles, ⟨hvalid, hresume⟩, hkept⟩ := h
  have hstate : stateForUpdate (fileOf spec progress payloadLen) next.analysis = .ok _ :=
    stateForUpdate_eq_ok.mpr ⟨UInt64.not_le.mp hnewer, hsettles, rfl⟩
  have hheld : ∀ k (hk : k < (bits spec progress.analysis).length),
      (bits spec progress.analysis)[k] = true → covered spec next.analysis (0 + k) = true := by
    intro k hk hset
    rw [bits_getElem _ hk] at hset
    rw [bits_length] at hk
    rw [Nat.zero_add]
    exact hkept k hk hset
  obtain ⟨patches, hpatches⟩ := indexPatches_kept (by rw [bits_length, Nat.zero_add]) hheld
  have hheader : (headerFor spec next.analysis payload.length).encode = _ :=
    Header.encode_eq spec.fingerprint_valid
  exact ⟨_, buildUpdate_eq_ok.mpr ⟨_, _, none, payload, patches, _, map_eq_ok.mpr ⟨_, hstate, rfl⟩,
    ⟨hvalid, hresume, hwritten, hfits⟩, hpatches, hheader, rfl⟩⟩

end AnalysisArchive

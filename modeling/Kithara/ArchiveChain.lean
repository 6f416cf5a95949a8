import Kithara.ArchiveFiles

/-! Chains of publications: a file created from the first and updated with each of the others. Every
generation parses to the publication it was written from when each artifact of it has its tag. -/
namespace AnalysisArchive

open ByteReaders AnalysisBlobs

variable {W B : Type} {S : Sections W B} {spec : AnalysisFileSpec}

structure Generation (S : Sections W B) where
  progress : AnalysisProgress S
  bytes : Bytes

inductive Chain (spec : AnalysisFileSpec) : List (Generation S) → Prop where
  | create {progress : AnalysisProgress S} {update : AnalysisFileUpdate}
      (created : AnalysisFile.create spec progress = .ok update) :
      Chain spec [⟨progress, update.apply []⟩]
  | update {latest : Generation S} {older : List (Generation S)} {file : AnalysisFile S}
      {progress : AnalysisProgress S} {update : AnalysisFileUpdate}
      (chain : Chain spec (latest :: older))
      (parsed : AnalysisFile.parse latest.bytes spec.fingerprint = .ok file)
      (updated : file.update progress = .ok update) :
      Chain spec (⟨progress, update.apply latest.bytes⟩ :: latest :: older)

def storedLength (S : Sections W B) (analysis : TrackAnalysis W B) : ℕ :=
  84 + (utf8 analysis.token).length + analysis.coverage.set.runs.length * 16 +
    (utf8 (analysis.fingerprint.waveform.getD "")).length +
    (analysis.waveform.elim [] S.waveform.writeTo).length +
    (utf8 (analysis.fingerprint.beat.getD "")).length +
    (analysis.beat.elim [] fun beat => S.beat.writeTo beat.artifact).length +
    (analysis.beat.elim [] BeatSnapshot.unanalysed).length * 16

def payloadLength (progress : AnalysisProgress S) : ℕ :=
  20 + storedLength S progress.analysis + progress.resumeBytes.length

/-- Lengths within their fields: the token's is 32 bits wide, the file's 64. -/
structure Representable (spec : AnalysisFileSpec) (progress : AnalysisProgress S) : Prop where
  token : (utf8 progress.analysis.token).length < 2 ^ 32
  payload : spec.layout.payloadOffset + payloadLength progress < 2 ^ 64

theorem writeStr_of_lt {value : String} (h : (utf8 value).length < 2 ^ 32) :
    ∃ bytes, writeStr value = .ok bytes ∧ bytes.length = 4 + (utf8 value).length :=
  ⟨_, if_pos h, by rw [List.length_append, writeU32_length]⟩

theorem writeSection_of_lt {content : Bytes} (h : content.length < 2 ^ 64) :
    ∃ bytes, writeSection content = .ok bytes ∧ bytes.length = 8 + content.length :=
  ⟨_, if_pos h, by rw [List.length_append, writeU64_length]⟩

theorem tag_lt {tag : Option String} (h : validateTag tag = .ok ()) :
    (utf8 (tag.getD "")).length < 2 ^ 32 := by
  obtain ⟨-, hlen⟩ := validateTag_ok h
  have hmax : fingerprintMax = 1024 := rfl
  cases tag with
  | none => decide
  | some tag =>
    rw [Option.elim_some] at hlen
    rw [Option.getD_some]
    omega

theorem stored_of_lt {analysis : TrackAnalysis W B}
    (htoken : (utf8 analysis.token).length < 2 ^ 32)
    (hfingerprint : validateFingerprint analysis.fingerprint = .ok ())
    (h : storedLength S analysis < 2 ^ 64) :
    ∃ stored, analysis.writeTo S = .ok stored ∧ stored.length = storedLength S analysis := by
  rw [storedLength] at h ⊢
  obtain ⟨hwaveformTag, hbeatTag⟩ := validateFingerprint_ok hfingerprint
  have hwaveform : (analysis.waveform.elim [] S.waveform.writeTo).length < 2 ^ 64 := by omega
  have hbeat : (analysis.beat.elim [] fun beat => S.beat.writeTo beat.artifact).length <
      2 ^ 64 := by omega
  obtain ⟨token, htoken, htokenLen⟩ := writeStr_of_lt htoken
  obtain ⟨waveformTag, hwaveformTag, hwaveformTagLen⟩ := writeStr_of_lt (tag_lt hwaveformTag)
  obtain ⟨beatTag, hbeatTag, hbeatTagLen⟩ := writeStr_of_lt (tag_lt hbeatTag)
  obtain ⟨waveform, hwaveform, hwaveformLen⟩ := writeSection_of_lt hwaveform
  obtain ⟨beat, hbeat, hbeatLen⟩ := writeSection_of_lt hbeat
  have hruns : (analysis.coverage.set.runs.flatMap writeRun).length =
      analysis.coverage.set.runs.length * 16 := flatMap_length fun run _ => by simp [writeRun]
  simp only [TrackAnalysis.writeTo, htoken, hwaveformTag, hwaveform, hbeatTag, hbeat, bind,
    Except.bind, pure, Except.pure]
  refine ⟨_, rfl, ?_⟩
  simp only [List.length_append, writeU32_length, writeU64_length, writeBool_length,
    writeRanges_length, TrackAnalysis.writeOrigin, writeOptionalU64, writeCoverage, writeLen_length,
    hruns, htokenLen, hwaveformTagLen, hbeatTagLen, hwaveformLen, hbeatLen]
  omega

theorem written_of_representable {progress : AnalysisProgress S}
    (hvalid : validateAnalysis spec progress.analysis = .ok ())
    (h : Representable spec progress) :
    ∃ payload, progress.writeTo = .ok payload ∧ payload.length = payloadLength progress := by
  obtain ⟨htoken, hpayload⟩ := h
  rw [payloadLength] at hpayload ⊢
  obtain ⟨-, -, hsame, -⟩ := validateAnalysis_ok hvalid
  have hfingerprint := spec.fingerprint_valid
  rw [← hsame] at hfingerprint
  obtain ⟨stored, hstored, hlen⟩ := stored_of_lt (S := S) htoken hfingerprint (by omega)
  simp only [AnalysisProgress.writeTo, hstored, bind, Except.bind, pure, Except.pure]
  refine ⟨_, rfl, ?_⟩
  simp only [List.length_append, writeU32_length, writeLen_length, hlen]
  omega

theorem update_refused_iff {latest progress : AnalysisProgress S} {payloadLen : ℕ}
    (h : Representable spec progress) :
    (∃ e, (fileOf spec latest payloadLen).update progress = .error e) ↔
      Refused spec latest progress := by
  constructor
  · rintro ⟨e, he⟩
    by_contra hnot
    have hvalid : validateAnalysis spec progress.analysis = .ok () := by
      simp only [Refused, drifted_iff, not_or, not_not] at hnot
      exact hnot.2.2.1.1
    obtain ⟨payload, hwritten, hlen⟩ := written_of_representable hvalid h
    obtain ⟨update, hupdate⟩ := update_of_not_refused hwritten (by rw [hlen]; exact h.payload) hnot
    rw [he] at hupdate
    cases hupdate
  · intro hrefused
    cases hupdate : (fileOf spec latest payloadLen).update progress with
    | error e => exact ⟨e, rfl⟩
    | ok update =>
      obtain ⟨payload, haccepted, -, hnewer, hsettles, hkept⟩ := update_applied hupdate
      rw [Refused, drifted_iff] at hrefused
      rcases hrefused with hstale | ⟨hsettled, hunsettled⟩ | (hinvalid | hforeign) |
        ⟨id, hid, hheld, hlost⟩
      · exact absurd hnewer (UInt64.not_lt.mpr hstale)
      · rw [hsettles hsettled] at hunsettled
        cases hunsettled
      · exact absurd haccepted.valid hinvalid
      · rw [haccepted.resume] at hforeign
        cases hforeign
      · rw [hkept id hid hheld] at hlost
        cases hlost

theorem create_of_not_drifted {progress : AnalysisProgress S} (h : Representable spec progress)
    (hbelongs : ¬ Drifted spec progress) :
    ∃ update, AnalysisFile.create spec progress = .ok update := by
  rw [drifted_iff, not_or, not_not, Bool.not_eq_false] at hbelongs
  obtain ⟨hvalid, hresume⟩ := hbelongs
  obtain ⟨payload, hwritten, hlen⟩ := written_of_representable hvalid h
  have hheld : ∀ k (hk : k < (List.replicate spec.layout.chunkCount false).length),
      (List.replicate spec.layout.chunkCount false)[k] = true →
        covered spec progress.analysis (0 + k) = true := by
    intro k hk hset
    rw [List.getElem_replicate] at hset
    cases hset
  obtain ⟨patches, hpatches⟩ :=
    indexPatches_kept (by rw [List.length_replicate, Nat.zero_add]) hheld
  have hheader : (headerFor spec progress.analysis payload.length).encode = _ :=
    Header.encode_eq spec.fingerprint_valid
  have hfits : spec.layout.payloadOffset + payload.length < 2 ^ 64 := by
    rw [hlen]
    exact h.payload
  exact ⟨_, buildUpdate_eq_ok.mpr ⟨_, _, _, payload, patches, _, stateForCreate_eq spec,
    ⟨hvalid, hresume, hwritten, hfits⟩, hpatches, hheader, rfl⟩⟩

/-- The header says of the file what the publication says of itself, and where its bytes are. -/
structure HeaderStates (header : Header) (generation : Generation S) : Prop where
  settled : header.settled = generation.progress.analysis.settled
  revision : header.latestRevision = generation.progress.analysis.revision
  rate : header.sourceSampleRate = generation.progress.analysis.sourceSampleRate
  extent : some header.extent = generation.progress.analysis.extent
  fingerprint : header.fingerprint = generation.progress.analysis.fingerprint
  chunkFrames : ∀ resume ∈ generation.progress.resume, resume.chunkFrames = header.chunkFrames
  payloadEnd : header.payloadEnd.toNat = generation.bytes.length
  payload : generation.progress.writeTo =
    .ok (generation.bytes.drop header.latestPayloadOffset.toNat)
  payloadLen : header.latestPayloadOffset.toNat + header.latestPayloadLen.toNat =
    generation.bytes.length

def IndexBit (generation : Generation S) (id : ℕ) : Prop :=
  generation.bytes[headerLen + id]? = some 1

/-- The file parses to the publication it was written from, its index marks the chunks covered
whole, and it refuses what it must and nothing else. -/
def Stands (spec : AnalysisFileSpec) (generation : Generation S) : Prop :=
  ∃ file : AnalysisFile S, AnalysisFile.parse generation.bytes spec.fingerprint = .ok file ∧
    file.latest = generation.progress ∧ HeaderStates file.header generation ∧
    (∀ id < spec.layout.chunkCount, IndexBit generation id ↔
      ∀ frame, (chunk spec id).1 ≤ frame → frame < (chunk spec id).2 →
        frame ∈ generation.progress.analysis.coverage.set) ∧
    ∀ progress, Representable spec progress →
      ((∃ e, file.update progress = .error e) ↔ Refused spec generation.progress progress)

def Written (spec : AnalysisFileSpec) (generation : Generation S) : Prop :=
  ∃ payload, Accepted spec generation.progress payload ∧
    generation.bytes = fileBytes spec generation.progress.analysis payload

namespace Written

variable {generation : Generation S}

theorem index_byte (h : Written spec generation) {id : ℕ} (hid : id < spec.layout.chunkCount) :
    generation.bytes[headerLen + id]? =
      some (entryByte (covered spec generation.progress.analysis id)) := by
  obtain ⟨payload, -, hbytes⟩ := h
  have hlen : (Header.bytesOf (headerFor spec generation.progress.analysis payload.length)).length =
      headerLen := headerBytes_length _ _
  have hentries : id < ((bits spec generation.progress.analysis).map entryByte).length := by
    rwa [List.length_map, bits_length]
  rw [hbytes, fileBytes, fixedBytes, List.append_assoc, List.getElem?_append_right (by omega), hlen,
    Nat.add_sub_cancel_left, List.getElem?_append_left hentries, List.getElem?_eq_getElem hentries,
    List.getElem_map, bits_getElem]

theorem indexBit_iff (h : Written spec generation) {id : ℕ} (hid : id < spec.layout.chunkCount) :
    IndexBit generation id ↔ covered spec generation.progress.analysis id = true := by
  rw [IndexBit, h.index_byte hid]
  cases covered spec generation.progress.analysis id <;> decide

theorem stands_iff (h : Written spec generation) :
    Stands spec generation ↔ Intact generation.progress.analysis := by
  obtain ⟨payload, haccepted, hbytes⟩ := h
  have hparse := haccepted.parse_eq
  rw [← hbytes] at hparse
  constructor
  · rintro ⟨file, hfile, hlatest, -⟩
    rw [hparse] at hfile
    split at hfile
    · cases hfile
    · rw [← AnalysisProgress.restored_eq_self]
      exact (congrArg AnalysisFile.latest (Except.ok.inj hfile)).trans hlatest
  · intro hintact
    obtain ⟨hrate, hextent, hfingerprint, -⟩ := validateAnalysis_ok haccepted.valid
    obtain ⟨-, -, hoffset, hend, hlen⟩ := haccepted.header_numbers
    have hbytesLen : (fileBytes spec generation.progress.analysis payload).length = _ :=
      fileBytes_length _ _
    rw [← hbytes] at hbytesLen
    have hdrop : generation.bytes.drop spec.layout.payloadOffset = payload := by
      rw [hbytes, fileBytes]
      exact List.drop_left' (fixedBytes_length _ _)
    have hpayloadOffset : (headerFor spec generation.progress.analysis
        payload.length).latestPayloadOffset.toNat = spec.layout.payloadOffset := hoffset
    rw [hintact.tagged, AnalysisProgress.restored_eq_self.mpr hintact] at hparse
    refine ⟨_, hparse, rfl, ?_, fun id hid => ?_, fun progress hp => update_refused_iff hp⟩
    · exact {
        settled := rfl
        revision := rfl
        rate := hrate.symm
        extent := hextent.symm
        fingerprint := hfingerprint.symm
        chunkFrames := fun resume hr => by
          have hmatches := haccepted.resume
          rw [resumeMatches, Option.mem_def.mp hr] at hmatches
          exact of_decide_eq_true hmatches
        payloadEnd := hend.trans hbytesLen.symm
        payload := by
          rw [hpayloadOffset, hdrop]
          exact haccepted.written
        payloadLen := by
          rw [hpayloadOffset, hlen, hbytesLen] }
    · rw [Written.indexBit_iff ⟨payload, haccepted, hbytes⟩ hid]
      exact covered_iff

end Written

structure Follows (spec : AnalysisFileSpec) (later earlier : Generation S) : Prop where
  revision : earlier.progress.analysis.revision < later.progress.analysis.revision
  bits : ∀ id < spec.layout.chunkCount, IndexBit earlier id → IndexBit later id

theorem Follows.trans {last later earlier : Generation S} (h : Follows spec last later)
    (h' : Follows spec later earlier) : Follows spec last earlier :=
  ⟨UInt64.lt_trans h'.revision h.revision,
    fun id hid hbit => h.bits id hid (h'.bits id hid hbit)⟩

theorem Written.next {latest : Generation S} {progress : AnalysisProgress S}
    {file : AnalysisFile S} {update : AnalysisFileUpdate} (h : Written spec latest)
    (hintact : Intact latest.progress.analysis)
    (hparsed : AnalysisFile.parse latest.bytes spec.fingerprint = .ok file)
    (hupdated : file.update progress = .ok update) :
    Written spec ⟨progress, update.apply latest.bytes⟩ ∧
      Follows spec ⟨progress, update.apply latest.bytes⟩ latest := by
  obtain ⟨payload, haccepted, hbytes⟩ := id h
  have hparse := haccepted.parse_eq
  rw [← hbytes, hintact.tagged, AnalysisProgress.restored_eq_self.mpr hintact, hparsed] at hparse
  have hfile : file = fileOf spec latest.progress payload.length := Except.ok.inj hparse
  rw [hfile] at hupdated
  obtain ⟨following, hnext, happly, hnewer, -, hkept⟩ := update_applied hupdated
  have hwritten : Written spec ⟨progress, update.apply latest.bytes⟩ :=
    ⟨following, hnext, by rw [hbytes]; exact happly payload rfl⟩
  refine ⟨hwritten, hnewer, fun id hid hbit => ?_⟩
  rw [hwritten.indexBit_iff hid]
  exact hkept id hid ((h.indexBit_iff hid).mp hbit)

theorem chain_written {generations : List (Generation S)} (h : Chain spec generations)
    (hintact : ∀ generation ∈ generations.tail, Intact generation.progress.analysis) :
    (∀ generation ∈ generations, Written spec generation) ∧
      generations.Pairwise (Follows spec) := by
  induction h with
  | create created =>
    obtain ⟨payload, haccepted, hbytes⟩ := create_applied created
    refine ⟨fun generation hg => ?_, List.pairwise_singleton _ _⟩
    rw [List.mem_singleton.mp hg]
    exact ⟨payload, haccepted, hbytes⟩
  | @update latest older file progress update chain parsed updated ih =>
    have holder : ∀ generation ∈ (latest :: older).tail, Intact generation.progress.analysis :=
      fun generation hg => hintact generation (List.mem_cons_of_mem latest hg)
    obtain ⟨hwritten, hordered⟩ := ih holder
    have hlatest := hintact latest List.mem_cons_self
    obtain ⟨hnext, hfollows⟩ :=
      (hwritten latest List.mem_cons_self).next hlatest parsed updated
    refine ⟨fun generation hg => ?_, List.pairwise_cons.mpr ⟨fun earlier he => ?_, hordered⟩⟩
    · rcases List.mem_cons.mp hg with rfl | hg
      · exact hnext
      · exact hwritten generation hg
    · rcases List.mem_cons.mp he with rfl | he
      · exact hfollows
      · exact hfollows.trans ((List.pairwise_cons.mp hordered).1 earlier he)

/-- The publications of a chain are read back one by one, and each marks what it covers over what
was marked before, as long as every artifact has its tag; the first that breaks this is not read
back. -/
theorem chain_stands_iff {latest : Generation S} {older : List (Generation S)}
    (h : Chain spec (latest :: older))
    (hintact : ∀ generation ∈ older, Intact generation.progress.analysis) :
    (∀ generation ∈ older, Stands spec generation) ∧
      (latest :: older).Pairwise (Follows spec) ∧
      (Stands spec latest ↔ Intact latest.progress.analysis) := by
  obtain ⟨hwritten, hordered⟩ := chain_written h hintact
  refine ⟨fun generation hg => ?_, hordered, (hwritten latest List.mem_cons_self).stands_iff⟩
  exact (hwritten generation (List.mem_cons_of_mem latest hg)).stands_iff.mpr
    (hintact generation hg)

def headerOnly : SectionCodec Unit where
  writeTo _ := [1, 0, 0, 0]
  tryFrom bytes := if bytes = [1, 0, 0, 0] then .ok () else .error .corrupt
  versioned _ := le_rfl
  roundTrip _ := rfl

def headerOnlySections : Sections Unit Unit where
  waveform := headerOnly
  beat := headerOnly
  waveformResume _ := .ok ()
  beatResume _ := .ok ()

def twoChunks (waveformTag : Option String) (h : validateTag waveformTag = .ok ()) :
    AnalysisFileSpec where
  fingerprint := ⟨none, waveformTag⟩
  sourceSampleRate := ⟨48000, by decide⟩
  chunkFrames := ⟨1, by decide⟩
  extent := 2
  layout := ⟨2, headerLen, headerLen + 2⟩
  fingerprint_valid := by
    rw [validateFingerprint, h]
    rfl
  layout_valid := by decide

def settledWaveform (waveformTag : Option String) (revision : UInt64) (frames : ℕ)
    (h : frames < 2 ^ 64) : AnalysisProgress headerOnlySections where
  resume := none
  analysis := {
    fingerprint := ⟨none, waveformTag⟩, token := "", sourceSampleRate := ⟨48000, by decide⟩
    mediaOrigin := none, beat := none, extent := some 2, waveform := some ()
    coverage := Coverage.empty.insert 0 frames h, settled := true, revision := revision }
  resumable := rfl

theorem settledWaveform_intact (tag : String) (revision : UInt64) (frames : ℕ)
    (h : frames < 2 ^ 64) :
    Intact (settledWaveform (some tag) revision frames h).analysis :=
  ⟨fun _ => Option.some_ne_none tag, fun hb => absurd rfl hb, fun beat hb => by cases hb⟩

/-- The first frame, then both. -/
theorem two_publications_stand :
    ∃ first second : Generation headerOnlySections,
      Chain (twoChunks (some "wave") rfl) [second, first] ∧
      (∀ generation ∈ [first], Intact generation.progress.analysis) ∧
      (∀ generation ∈ [first], Stands (twoChunks (some "wave") rfl) generation) ∧
      Stands (twoChunks (some "wave") rfl) second := by
  have hfirst : Representable (twoChunks (some "wave") rfl)
      (settledWaveform (some "wave") 1 1 (by decide)) := ⟨by decide, by decide⟩
  have hsecond : Representable (twoChunks (some "wave") rfl)
      (settledWaveform (some "wave") 2 2 (by decide)) := ⟨by decide, by decide⟩
  have hbelongs : ¬ Drifted (twoChunks (some "wave") rfl)
      (settledWaveform (some "wave") 1 1 (by decide)) := by
    rw [drifted_iff]
    decide
  have haccepted : ¬ Refused (twoChunks (some "wave") rfl)
      (settledWaveform (some "wave") 1 1 (by decide))
      (settledWaveform (some "wave") 2 2 (by decide)) := by
    rw [Refused, drifted_iff]
    decide
  obtain ⟨created, hcreated⟩ := create_of_not_drifted hfirst hbelongs
  have hchain := Chain.create hcreated
  have hintact := settledWaveform_intact "wave" 1 1 (by decide)
  have hnone : ∀ generation ∈ ([] : List (Generation headerOnlySections)),
      Intact generation.progress.analysis := fun generation hg => absurd hg List.not_mem_nil
  have hwritten := (chain_written hchain hnone).1 _ List.mem_cons_self
  have hstands := hwritten.stands_iff.mpr hintact
  obtain ⟨file, hparsed, -, -, -, hrefuses⟩ := hstands
  cases hupdated : file.update (settledWaveform (some "wave") 2 2 (by decide)) with
  | error e => exact absurd ((hrefuses _ hsecond).mp ⟨e, hupdated⟩) haccepted
  | ok updated =>
    have hlonger := hchain.update hparsed hupdated
    have hfirstIntact : ∀ generation ∈ [(⟨settledWaveform (some "wave") 1 1 (by decide),
        created.apply []⟩ : Generation headerOnlySections)],
        Intact generation.progress.analysis := by
      intro generation hg
      rw [List.mem_singleton.mp hg]
      exact hintact
    obtain ⟨hstand, -, hlast⟩ := chain_stands_iff hlonger hfirstIntact
    exact ⟨_, _, hlonger, hfirstIntact, hstand,
      hlast.mpr (settledWaveform_intact "wave" 2 2 (by decide))⟩

/-- Without a tag for its waveform the publication is taken and its file is not. -/
theorem untagged_waveform_unreadable :
    ∃ update, AnalysisFile.create (twoChunks none rfl)
        (settledWaveform none 1 1 (by decide)) = .ok update ∧
      AnalysisFile.parse (S := headerOnlySections) (update.apply []) ⟨none, none⟩ =
        .error (.payload .fingerprint) := by
  have hrepresentable : Representable (twoChunks none rfl)
      (settledWaveform none 1 1 (by decide)) := ⟨by decide, by decide⟩
  have hbelongs : ¬ Drifted (twoChunks none rfl) (settledWaveform none 1 1 (by decide)) := by
    rw [drifted_iff]
    decide
  obtain ⟨update, hcreated⟩ := create_of_not_drifted hrepresentable hbelongs
  obtain ⟨payload, haccepted, hbytes⟩ := create_applied hcreated
  refine ⟨update, hcreated, ?_⟩
  rw [hbytes]
  exact haccepted.parse_eq

end AnalysisArchive

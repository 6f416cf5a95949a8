import Kithara.AnalysisBlobs

/-! What is written of a publication reads back whole, artifact by artifact under its own tag. -/
namespace AnalysisBlobs

open ByteReaders RangeRuns

variable {W B : Type} {S : Sections W B}

theorem reads_bool (value : Bool) : Reads readBool (writeBool value) value := by
  have hbyte : writeBool value = littleEndian 1 value.toNat := by cases value <;> rfl
  have hlt : value.toNat < 2 := Bool.toNat_lt value
  have hback : (value.toNat == 1) = value := by cases value <;> rfl
  rw [hbyte, ← List.append_nil (littleEndian 1 value.toNat)]
  refine (reads_readNat (by omega)).bind ((reads_check hlt).skip ?_)
  have hpure := Reads.pure (ε := BlobError) (value.toNat == 1)
  rwa [hback] at hpure ⊢

theorem reads_u32 (value : UInt32) : Reads readU32 (writeU32 value) value := by
  have hr : Reads readU32 (writeU32 value) (UInt32.ofNat value.toNat) :=
    (reads_readNat value.toNat_lt).map
  rwa [UInt32.ofNat_toNat] at hr

theorem reads_u64 (value : UInt64) : Reads readU64 (writeU64 value) value := by
  have hr : Reads readU64 (writeU64 value) (UInt64.ofNat value.toNat) :=
    (reads_readNat value.toNat_lt).map
  rwa [UInt64.ofNat_toNat] at hr

@[simp] theorem writeBool_length (value : Bool) : (writeBool value).length = 1 := rfl

@[simp] theorem writeU32_length (value : UInt32) : (writeU32 value).length = 4 :=
  littleEndian_length 4 _

@[simp] theorem writeU64_length (value : UInt64) : (writeU64 value).length = 8 :=
  littleEndian_length 8 _

@[simp] theorem writeLen_length (len : ℕ) : (writeLen len).length = 8 := writeU64_length _

theorem reads_len {len : ℕ} (h : len < 2 ^ 64) : Reads readLen (writeLen len) len := by
  have hr := (reads_u64 (UInt64.ofNat (min len (2 ^ 64 - 1)))).map (f := UInt64.toNat)
  have hmin : min len (2 ^ 64 - 1) = len := by omega
  rw [hmin, UInt64.toNat_ofNat_of_lt' h] at hr
  rw [writeLen, hmin]
  exact hr

theorem reads_optional (value : Option UInt64) :
    Reads readOptionalU64 (writeOptionalU64 value) value := by
  have hvalue : (if value.isSome then some (value.getD 0) else none) = value := by
    cases value <;> rfl
  have hread : Reads readOptionalU64 (writeOptionalU64 value)
      (if value.isSome then some (value.getD 0) else none) := by
    rw [readOptionalU64, writeOptionalU64]
    exact (reads_bool value.isSome).bind (reads_u64 (value.getD 0)).last
  rwa [hvalue] at hread

theorem reads_section {content bytes : Bytes} (h : writeSection content = .ok bytes) :
    Reads readSection bytes content := by
  simp only [writeSection] at h
  split at h
  · next hlen =>
    cases h
    have hr := reads_len hlen
    have hmin : min content.length (2 ^ 64 - 1) = content.length := by omega
    rw [writeLen, hmin] at hr
    exact hr.bind (reads_take rfl)
  · cases h

theorem reads_sectionLen {content : Bytes} (h : content.length < 2 ^ 64) :
    Reads readSection (writeLen content.length ++ content) content :=
  (reads_len h).bind (reads_take rfl)

theorem ofUtf8_utf8 (value : String) : ofUtf8 (utf8 value) = .ok value := by
  have hbytes : (⟨(utf8 value).toArray⟩ : ByteArray) = value.toByteArray := by
    simp [utf8]
  have hvalid : value.toByteArray.IsValidUTF8 := value.isValidUTF8
  simp only [ofUtf8, hbytes, String.fromUTF8?, dif_pos hvalid]
  rfl

theorem reads_str {value : String} {bytes : Bytes} (h : writeStr value = .ok bytes) :
    Reads readStr bytes value := by
  simp only [writeStr] at h
  split at h
  · next hlen =>
    have hback := UInt32.toNat_ofNat_of_lt' hlen
    generalize UInt32.ofNat (utf8 value).length = len at h hback
    cases h
    have htake : Reads (take BlobError.corrupt len.toNat) (utf8 value) (utf8 value) :=
      reads_take hback.symm
    have hvalue : Reads (ofResult (ofUtf8 (utf8 value))) [] value := by
      rw [ofUtf8_utf8]
      exact reads_ofResult
    rw [readStr, ← List.append_nil (utf8 value)]
    exact (reads_u32 len).bind (htake.bind hvalue)
  · cases h

theorem reads_count {α : Type} {count item : ℕ} {f : ℕ → BlobReader α} {items : Bytes} {y : α}
    (hcount : count < 2 ^ 64) (hitems : count * item ≤ items.length) (h : Reads (f count) items y) :
    Reads (readCount item >>= f) (writeLen count ++ items) y := by
  rw [readCount, bind_assoc]
  refine (reads_len hcount).bind ?_
  rw [bind_assoc]
  refine reads_remaining fun left hleft => ?_
  have hfits : min (count * item) (2 ^ 64 - 1) ≤ left := by omega
  rw [bind_assoc]
  refine (reads_check hfits).skip ?_
  rwa [pure_bind]

theorem flatMap_length {α : Type} {xs : List α} {write : α → Bytes} {n : ℕ}
    (h : ∀ x ∈ xs, (write x).length = n) : (xs.flatMap write).length = xs.length * n := by
  induction xs with
  | nil => simp
  | cons x xs ih =>
    have htail := ih fun y hy => h y (List.mem_cons_of_mem x hy)
    rw [List.flatMap_cons, List.length_append, htail, h x List.mem_cons_self, List.length_cons,
      Nat.succ_mul]
    omega

/-- What comes back of a range: one that runs backward comes back empty where it starts. -/
def forward (range : UInt64 × UInt64) : UInt64 × UInt64 :=
  if range.1 ≤ range.2 then range else (range.1, range.1)

theorem reads_range (range : UInt64 × UInt64) :
    Reads readRange (writeRange range) (forward range) := by
  have hsub : range.2.toNat - range.1.toNat < 2 ^ 64 := by
    have := range.2.toNat_lt
    omega
  have hframes : (frames range).toNat = range.2.toNat - range.1.toNat :=
    UInt64.toNat_ofNat_of_lt' hsub
  have hback : (range.1, UInt64.ofNat
      (min (range.1.toNat + (frames range).toNat) (2 ^ 64 - 1))) = forward range := by
    have hend := range.2.toNat_lt
    have hstart := range.1.toNat_lt
    rw [hframes, forward]
    split
    · next hle =>
      rw [UInt64.le_iff_toNat_le] at hle
      have hmin : min (range.1.toNat + (range.2.toNat - range.1.toNat)) (2 ^ 64 - 1) =
          range.2.toNat := by omega
      rw [hmin, UInt64.ofNat_toNat]
    · next hgt =>
      rw [UInt64.le_iff_toNat_le] at hgt
      have hmin : min (range.1.toNat + (range.2.toNat - range.1.toNat)) (2 ^ 64 - 1) =
          range.1.toNat := by omega
      rw [hmin, UInt64.ofNat_toNat]
  rw [← hback, readRange, writeRange]
  exact (reads_u64 range.1).bind (reads_u64 (frames range)).last

theorem writeRanges_length (ranges : List (UInt64 × UInt64)) :
    (writeRanges ranges).length = 8 + ranges.length * 16 := by
  have hitems : (ranges.flatMap writeRange).length = ranges.length * 16 :=
    flatMap_length fun range _ => by simp [writeRange]
  rw [writeRanges, List.length_append, writeLen_length, hitems]

theorem reads_ranges {ranges : List (UInt64 × UInt64)} (h : ranges.length < 2 ^ 64) :
    Reads readRanges (writeRanges ranges) (ranges.map forward) := by
  have hlen : (ranges.flatMap writeRange).length = ranges.length * 16 :=
    flatMap_length fun range _ => by simp [writeRange]
  exact reads_count h (by omega) (reads_readMany fun range _ => reads_range range)

theorem reads_runs {rest : List (ℕ × ℕ)} {previousEnd : Option ℕ} {held whole : Coverage}
    (hruns : whole.set.runs = held.set.runs ++ rest)
    (hprevious : ∀ last ∈ previousEnd, ∀ r ∈ rest, last < r.1) :
    Reads (readRuns rest.length previousEnd held) (rest.flatMap writeRun) whole := by
  induction rest generalizing previousEnd held with
  | nil =>
    have hsame : whole = held := by
      ext1
      ext1
      simpa using hruns
    rw [hsame]
    exact Reads.pure held
  | cons run rest ih =>
    obtain ⟨start, stop⟩ := run
    have hmem : (start, stop) ∈ whole.set.runs := by simp [hruns]
    have hlt : start < stop := whole.set.canonical.1 _ hmem
    have hstop : stop < 2 ^ 64 := whole.fits _ hmem
    have hcanonical := whole.set.canonical.2
    rw [hruns, List.pairwise_append] at hcanonical
    obtain ⟨-, hrest, hpast⟩ := hcanonical
    have hinsert : (held.insert start stop hstop).set.runs = held.set.runs ++ [(start, stop)] := by
      have hend := insertRun_past (b := stop) fun r hr => hpast r hr (start, stop) (by simp)
      rw [← hend]
      simp [Coverage.insert, RangeSet.insert, hlt]
    have hnext : whole.set.runs = (held.insert start stop hstop).set.runs ++ rest := by
      rw [hinsert, hruns, List.append_assoc, List.singleton_append]
    have hlater : ∀ last ∈ some stop, ∀ r ∈ rest, last < r.1 := by
      intro last hl
      cases hl
      exact (List.pairwise_cons.mp hrest).1
    have hread := ih hnext hlater
    have hstart : start < 2 ^ 64 := by omega
    have hframes : stop - start < 2 ^ 64 := by omega
    have hstart64 : (UInt64.ofNat start).toNat = start := UInt64.toNat_ofNat_of_lt' hstart
    have hframes64 : (UInt64.ofNat (stop - start)).toNat = stop - start :=
      UInt64.toNat_ofNat_of_lt' hframes
    have hne : UInt64.ofNat (stop - start) ≠ 0 := by
      intro hz
      rw [hz] at hframes64
      simp at hframes64
      omega
    rw [List.length_cons, readRuns, List.flatMap_cons, writeRun, List.append_assoc]
    refine (reads_u64 _).bind ((reads_u64 _).bind ?_)
    generalize UInt64.ofNat (stop - start) = frames64 at hframes64 hne
    generalize UInt64.ofNat start = start64 at hstart64
    subst hstart64
    have hmin : min (start64.toNat + frames64.toNat) (2 ^ 64 - 1) = stop := by omega
    have horder : previousEnd.any (fun last => decide (start64.toNat ≤ last)) = false := by
      cases previousEnd with
      | none => rfl
      | some last =>
        have hlast := hprevious last rfl _ List.mem_cons_self
        exact decide_eq_false (by omega)
    have hok : ¬ (frames64 = 0 ∨ stop - start64.toNat ≠ frames64.toNat ∨
        previousEnd.any (fun last => decide (start64.toNat ≤ last)) = true) := by
      rw [horder, hframes64]
      simp [hne]
    simp only [hmin, if_neg hok]
    exact hread

theorem reads_coverage {coverage : Coverage} (h : coverage.set.runs.length < 2 ^ 64) :
    Reads readCoverage (writeCoverage coverage) coverage := by
  have hlen : (coverage.set.runs.flatMap writeRun).length = coverage.set.runs.length * 16 :=
    flatMap_length fun run _ => by simp [writeRun]
  have hruns : coverage.set.runs = Coverage.empty.set.runs ++ coverage.set.runs := rfl
  exact reads_count h (by omega) (reads_runs hruns fun last hl => by cases hl)

theorem reads_sourceAxis (rate : NonZeroU32) (origin : Option Duration) :
    Reads readSourceAxis (writeU32 rate.val ++ TrackAnalysis.writeOrigin origin)
      (rate, origin) := by
  have hrate : nonZeroU32 rate.val = .ok rate := dif_pos rate.2
  have horigin : ofOrigin origin.isSome (origin.elim 0 Duration.secs)
      (origin.elim 0 Duration.nanos) = .ok origin := by
    cases origin with
    | none => rfl
    | some origin => exact dif_pos origin.bounded
  have hlast : Reads (do
      let origin ← ofResult (ofOrigin origin.isSome (origin.elim 0 Duration.secs)
        (origin.elim 0 Duration.nanos))
      pure (rate, origin)) [] (rate, origin) := by
    rw [horigin]
    exact reads_ofResult.last
  rw [readSourceAxis, TrackAnalysis.writeOrigin, List.append_assoc,
    ← List.append_nil (writeU32 (origin.elim 0 Duration.nanos))]
  refine (reads_u32 _).bind ?_
  rw [hrate]
  exact reads_ofResult.skip ((reads_bool _).bind ((reads_u64 _).bind ((reads_u32 _).bind hlast)))

/-- What is stored of a publication. -/
def rawOf (S : Sections W B) (analysis : TrackAnalysis W B) : RawTrackSnapshot where
  token := analysis.token
  sourceSampleRate := analysis.sourceSampleRate
  mediaOrigin := analysis.mediaOrigin
  extent := analysis.extent
  revision := analysis.revision
  settled := analysis.settled
  coverage := analysis.coverage
  waveformTag := analysis.fingerprint.waveform.getD ""
  waveformBytes := analysis.waveform.elim [] S.waveform.writeTo
  beatTag := analysis.fingerprint.beat.getD ""
  gridBytes := analysis.beat.elim [] fun beat => S.beat.writeTo beat.artifact
  finalGrid := analysis.beat.any fun beat => beat.state = .final
  unanalysed := (analysis.beat.elim [] BeatSnapshot.unanalysed).map forward

theorem reads_snapshot {analysis : TrackAnalysis W B} {bytes : Bytes}
    (h : analysis.writeTo S = .ok bytes) (hlen : bytes.length < 2 ^ 64) :
    Reads TrackAnalysis.read bytes (rawOf S analysis) := by
  simp only [TrackAnalysis.writeTo, bind_eq_ok] at h
  obtain ⟨token, htoken, waveformTag, hwaveformTag, waveform, hwaveform, beatTag, hbeatTag, beat,
    hbeat, hbytes⟩ := h
  cases hbytes
  simp only [List.length_append, writeRanges_length, writeCoverage] at hlen
  have hruns : (analysis.coverage.set.runs.flatMap writeRun).length =
      analysis.coverage.set.runs.length * 16 := flatMap_length fun run _ => by simp [writeRun]
  have hcoverage : analysis.coverage.set.runs.length < 2 ^ 64 := by omega
  have hranges : (analysis.beat.elim [] BeatSnapshot.unanalysed).length < 2 ^ 64 := by omega
  simp only [List.append_assoc]
  rw [TrackAnalysis.read]
  refine (reads_u32 _).bind ((reads_check rfl).skip ?_)
  rw [RawTrackSnapshot.read]
  refine (reads_str htoken).bind ?_
  rw [← List.append_assoc (writeU32 analysis.sourceSampleRate.val)]
  refine (reads_sourceAxis _ _).bind ((reads_optional _).bind ((reads_u64 _).bind
    ((reads_bool _).bind ((reads_coverage hcoverage).bind ((reads_str hwaveformTag).bind
    ((reads_section hwaveform).bind ((reads_str hbeatTag).bind ((reads_section hbeat).bind
    ((reads_bool _).bind (reads_ranges hranges).last)))))))))

/-- What the stored publication reads back as: each artifact under its own tag. -/
def restored (analysis : TrackAnalysis W B) : TrackAnalysis W B :=
  { analysis with
    waveform := if analysis.fingerprint.waveform.isSome then analysis.waveform else none
    beat := (if analysis.fingerprint.beat.isSome then analysis.beat else none).map fun beat =>
      { beat with unanalysed := beat.unanalysed.map forward } }

/-- Artifacts, and no tag to speak for any. -/
def untagged (analysis : TrackAnalysis W B) : Bool :=
  analysis.fingerprint.waveform.isNone && analysis.fingerprint.beat.isNone &&
    !(analysis.waveform.isNone && analysis.beat.isNone)

/-- Every artifact is tagged, and no unanalysed range runs backward. -/
structure Intact (analysis : TrackAnalysis W B) : Prop where
  waveform : analysis.waveform ≠ none → analysis.fingerprint.waveform ≠ none
  beat : analysis.beat ≠ none → analysis.fingerprint.beat ≠ none
  forward : ∀ beat ∈ analysis.beat, ∀ range ∈ beat.unanalysed, range.1 ≤ range.2

theorem artifact_stored {α : Type} (codec : SectionCodec α) (ok : Bool) (x : Option α) :
    RawTrackSnapshot.artifact codec ok (x.elim [] codec.writeTo) =
      .ok (if ok then x else none) := by
  cases x with
  | none => cases ok <;> rfl
  | some x =>
    have hne : (codec.writeTo x).isEmpty = false := by
      have hlen := codec.versioned x
      cases hx : codec.writeTo x with
      | nil => simp [hx] at hlen
      | cons => rfl
    cases ok with
    | false => rfl
    | true =>
      simp only [RawTrackSnapshot.artifact, Option.elim_some, hne, codec.roundTrip]
      rfl

theorem stored_isEmpty {α : Type} (codec : SectionCodec α) (x : Option α) :
    (x.elim [] codec.writeTo).isEmpty = x.isNone := by
  cases x with
  | none => rfl
  | some x =>
    have hlen := codec.versioned x
    cases hx : codec.writeTo x with
    | nil => simp [hx] at hlen
    | cons b bytes => simp [hx]

theorem tag_matches (tag : Option String) :
    (tag.any fun active => decide (tag.getD "" = active)) = tag.isSome := by
  cases tag <;> simp

theorem matchingArtifacts_raw (analysis : TrackAnalysis W B) :
    (rawOf S analysis).matchingArtifacts analysis.fingerprint =
      if untagged analysis then .error .fingerprint
      else .ok (analysis.fingerprint.waveform.isSome, analysis.fingerprint.beat.isSome) := by
  have hwaveform := stored_isEmpty S.waveform analysis.waveform
  have hgrid : (analysis.beat.elim [] fun beat => S.beat.writeTo beat.artifact).isEmpty =
      analysis.beat.isNone := by
    have hmap := stored_isEmpty S.beat (analysis.beat.map BeatSnapshot.artifact)
    cases hb : analysis.beat with
    | none => rfl
    | some beat => simpa [hb] using hmap
  have hrest : analysis.beat.isNone = true →
      ((!analysis.beat.any fun beat => beat.state = .final) &&
        ((analysis.beat.elim [] BeatSnapshot.unanalysed).map forward).isEmpty) = true := by
    intro hnone
    rw [Option.isNone_iff_eq_none.mp hnone]
    rfl
  dsimp only [RawTrackSnapshot.matchingArtifacts, rawOf]
  rw [tag_matches, tag_matches, hwaveform, hgrid, untagged]
  cases analysis.fingerprint.waveform with
  | some tag => rfl
  | none =>
    cases analysis.fingerprint.beat with
    | some tag => rfl
    | none =>
      cases hbeat : analysis.beat.isNone with
      | false => simp
      | true =>
        have hempty := hrest hbeat
        rw [Bool.and_eq_true] at hempty
        cases hwave : analysis.waveform.isNone with
        | false => simp
        | true => simp [hempty.1, hempty.2]

theorem intoAnalysis_raw (analysis : TrackAnalysis W B) :
    (rawOf S analysis).intoAnalysis S analysis.fingerprint =
      if untagged analysis then .error .fingerprint else .ok (restored analysis) := by
  have hgrid : (analysis.beat.elim [] fun beat => S.beat.writeTo beat.artifact) =
      (analysis.beat.map BeatSnapshot.artifact).elim [] S.beat.writeTo := by
    cases analysis.beat <;> rfl
  have htag : (if analysis.fingerprint.waveform.isSome then
      some (analysis.fingerprint.waveform.getD "") else none) = analysis.fingerprint.waveform := by
    cases analysis.fingerprint.waveform <;> rfl
  have hbeatTag : (if analysis.fingerprint.beat.isSome then
      some (analysis.fingerprint.beat.getD "") else none) = analysis.fingerprint.beat := by
    cases analysis.fingerprint.beat <;> rfl
  rw [RawTrackSnapshot.intoAnalysis, matchingArtifacts_raw]
  split
  · rfl
  · simp only [bind, Except.bind, rawOf, hgrid, artifact_stored, pure, Except.pure, htag, hbeatTag]
    rw [restored]
    cases hbeat : analysis.beat with
    | none => simp
    | some beat =>
      obtain ⟨artifact, state, unanalysed⟩ := beat
      cases state <;> cases analysis.fingerprint.beat.isSome <;> simp

theorem forward_eq_self {range : UInt64 × UInt64} :
    forward range = range ↔ range.1 ≤ range.2 := by
  rw [forward]
  split
  · next hle => simp [hle]
  · next hgt =>
    refine iff_of_false (fun he => hgt ?_) hgt
    have hsnd : range.1 = range.2 := congrArg Prod.snd he
    exact hsnd ▸ UInt64.le_refl _

theorem map_forward_eq_self {ranges : List (UInt64 × UInt64)} :
    ranges.map forward = ranges ↔ ∀ range ∈ ranges, forward range = range := by
  have hid := List.map_inj_left (l := ranges) (f := forward) (g := id)
  rwa [List.map_id] at hid

theorem Intact.tagged {analysis : TrackAnalysis W B} (h : Intact analysis) :
    untagged analysis = false := by
  by_contra hu
  rw [Bool.not_eq_false, untagged, Bool.and_eq_true, Bool.and_eq_true, Bool.not_eq_true',
    Bool.and_eq_false_iff] at hu
  obtain ⟨⟨hwave, hbeat⟩, hstored⟩ := hu
  rw [Option.isNone_iff_eq_none] at hwave hbeat
  rcases hstored with hnone | hnone
  · exact h.waveform (Option.isNone_eq_false_iff.mp hnone |> Option.isSome_iff_ne_none.mp) hwave
  · exact h.beat (Option.isNone_eq_false_iff.mp hnone |> Option.isSome_iff_ne_none.mp) hbeat

/-- A publication with a tagged artifact reads back as it was exactly when it is intact. -/
theorem restored_eq_self {analysis : TrackAnalysis W B} :
    restored analysis = analysis ↔ Intact analysis := by
  constructor
  · intro hsame
    have hwave := congrArg TrackAnalysis.waveform hsame
    have hbeat := congrArg TrackAnalysis.beat hsame
    simp only [restored] at hwave hbeat
    refine ⟨fun hne htag => ?_, fun hne htag => ?_, fun beat hb range hr => ?_⟩
    · rw [htag] at hwave
      exact hne hwave.symm
    · rw [htag] at hbeat
      exact hne hbeat.symm
    · rw [Option.mem_def.mp hb] at hbeat
      split at hbeat
      · have hunanalysed := congrArg BeatSnapshot.unanalysed (Option.some.inj hbeat)
        exact forward_eq_self.mp (map_forward_eq_self.mp hunanalysed range hr)
      · cases hbeat
  · intro h
    have hwaveform : (if analysis.fingerprint.waveform.isSome then analysis.waveform else none) =
        analysis.waveform := by
      cases hwave : analysis.waveform with
      | none => simp
      | some waveform =>
        have htag := h.waveform (by simp [hwave])
        rw [if_pos (Option.isSome_iff_ne_none.mpr htag)]
    have hbeat : ((if analysis.fingerprint.beat.isSome then analysis.beat else none).map fun beat =>
        { beat with unanalysed := beat.unanalysed.map forward }) = analysis.beat := by
      cases hbeat : analysis.beat with
      | none => simp
      | some beat =>
        have htag := h.beat (by simp [hbeat])
        have hmap := map_forward_eq_self.mpr fun range hr =>
          forward_eq_self.mpr (h.forward beat (by simp [hbeat]) range hr)
        rw [if_pos (Option.isSome_iff_ne_none.mpr htag), Option.map_some, hmap]
    rw [restored, hwaveform, hbeat]

theorem tryFrom_stored {analysis : TrackAnalysis W B} {bytes : Bytes}
    (h : analysis.writeTo S = .ok bytes) (hlen : bytes.length < 2 ^ 64) :
    TrackAnalysis.tryFrom S bytes analysis.fingerprint =
      if untagged analysis then .error .fingerprint else .ok (restored analysis) := by
  rw [TrackAnalysis.tryFrom, whole_of_reads (reads_snapshot h hlen)]
  exact intoAnalysis_raw analysis

namespace AnalysisResume

theorem bytes_ne_nil (resume : AnalysisResume S) : resume.bytes ≠ [] := by
  intro hnil
  have hdecodes := resume.decodes
  rw [hnil] at hdecodes
  cases hdecodes

theorem tryFrom_bytes (resume : AnalysisResume S) : tryFrom resume.bytes = .ok resume := by
  rw [tryFrom]
  split
  · next chunkFrames shape h =>
    rw [resume.decodes] at h
    cases h
    rfl
  · next h =>
    rw [resume.decodes] at h
    cases h

/-- The sections a capture takes: what the analyzers wrote of their own state. -/
def Captured (decode : Bytes → Except BlobError Unit) (captured : Option Bytes) : Prop :=
  ∀ content ∈ captured, content ≠ [] ∧ content.length < 2 ^ 64 ∧ decode content = .ok ()

theorem reads_captured {decode : Bytes → Except BlobError Unit} {captured : Option Bytes}
    (h : Captured decode captured) :
    Reads (decodeSection decode)
      (writeLen (captured.getD []).length ++ captured.getD []) captured.isSome := by
  rw [decodeSection, ← List.append_nil (writeLen _ ++ _)]
  cases captured with
  | none => exact (reads_sectionLen (by decide)).bind (Reads.pure false)
  | some content =>
    obtain ⟨hne, hlen, hdecode⟩ := h content rfl
    have hempty : content.isEmpty = false := by simpa using hne
    refine (reads_sectionLen hlen).bind ?_
    rw [hempty, hdecode]
    exact reads_ofResult.skip (Reads.pure true)

/-- The state of an unsettled pass, from what its analyzers captured. -/
def capture (chunkFrames : NonZeroU64) (waveform beat : Option Bytes)
    (hwaveform : Captured S.waveformResume waveform) (hbeat : Captured S.beatResume beat) :
    AnalysisResume S where
  bytes := writeU32 resumeVersion ++ (writeU64 chunkFrames.val ++
    ((writeLen (waveform.getD []).length ++ waveform.getD []) ++
      (writeLen (beat.getD []).length ++ beat.getD [])))
  chunkFrames := chunkFrames
  shape := (waveform.isSome, beat.isSome)
  decodes := by
    have hframes : nonZeroU64 chunkFrames.val = .ok chunkFrames := dif_pos chunkFrames.2
    refine whole_of_reads ((reads_u32 _).bind ((reads_check rfl).skip ((reads_u64 _).bind ?_)))
    rw [hframes]
    exact reads_ofResult.skip ((reads_captured hwaveform).bind (reads_captured hbeat).last)

end AnalysisResume

namespace AnalysisProgress

/-- What the stored publication reads back as. -/
def restored (progress : AnalysisProgress S) : AnalysisProgress S :=
  { progress with analysis := AnalysisBlobs.restored progress.analysis }

theorem ofResume_bytes (progress : AnalysisProgress S) :
    ofResume progress.resumeBytes = .ok progress.resume := by
  cases h : progress.resume with
  | none => simp [ofResume, resumeBytes, h]
  | some resume =>
    have hne : resume.bytes.isEmpty = false := by
      cases hb : resume.bytes with
      | nil => exact absurd hb resume.bytes_ne_nil
      | cons => rfl
    simp [ofResume, resumeBytes, h, hne, resume.tryFrom_bytes, Except.map]

/-- The bytes of a publication around its stored snapshot. -/
def framed (progress : AnalysisProgress S) (stored : Bytes) : Bytes :=
  writeU32 analysisProgressBytesVersion ++ ((writeLen stored.length ++ stored) ++
    (writeLen progress.resumeBytes.length ++ progress.resumeBytes))

theorem reads_framed {progress : AnalysisProgress S} {stored : Bytes}
    {active : AnalysisFingerprint} {analysis : TrackAnalysis W B}
    (hstored : stored.length < 2 ^ 64) (hresume : progress.resumeBytes.length < 2 ^ 64)
    (h : TrackAnalysis.tryFrom S stored active = .ok analysis) :
    Reads (read active) (framed progress stored) (analysis, progress.resume) := by
  rw [read, framed]
  refine (reads_u32 _).bind ((reads_check rfl).skip ((reads_sectionLen hstored).bind ?_))
  rw [h]
  refine reads_ofResult.skip ?_
  rw [← List.append_nil (writeLen _ ++ progress.resumeBytes)]
  refine (reads_sectionLen hresume).bind ?_
  rw [ofResume_bytes]
  exact reads_ofResult.last

theorem fails_framed {progress : AnalysisProgress S} {stored : Bytes}
    {active : AnalysisFingerprint} {e : BlobError} (hstored : stored.length < 2 ^ 64)
    (h : TrackAnalysis.tryFrom S stored active = .error e) :
    Fails (read (S := S) active) (framed progress stored) e := by
  rw [read, framed]
  refine (reads_u32 _).fails ?_
  rw [← List.nil_append ((writeLen stored.length ++ stored) ++ _)]
  refine (reads_check rfl).fails ((reads_sectionLen hstored).fails ?_)
  rw [h]
  exact fails_ofResult

theorem tryFrom_writeTo {progress : AnalysisProgress S} {bytes : Bytes}
    (h : progress.writeTo = .ok bytes) (hlen : bytes.length < 2 ^ 64) :
    tryFrom bytes progress.analysis.fingerprint =
      if untagged progress.analysis then .error .fingerprint else .ok progress.restored := by
  simp only [writeTo, bind_eq_ok] at h
  obtain ⟨stored, hstored, hbytes⟩ := h
  have hframed : bytes = framed progress stored := by
    cases hbytes
    simp only [framed, List.append_assoc]
  rw [hframed, framed] at hlen
  simp only [List.length_append] at hlen
  have hfits : stored.length < 2 ^ 64 := by omega
  have hresumeFits : progress.resumeBytes.length < 2 ^ 64 := by omega
  have hsnapshot := tryFrom_stored hstored hfits
  rw [hframed, tryFrom]
  split at hsnapshot
  · next huntagged =>
    rw [if_pos huntagged, whole_of_fails (fails_framed hfits hsnapshot)]
    rfl
  · next htagged =>
    rw [if_neg htagged, whole_of_reads (reads_framed hfits hresumeFits hsnapshot)]
    exact dif_pos progress.resumable

theorem restored_eq_self {progress : AnalysisProgress S} :
    progress.restored = progress ↔ Intact progress.analysis := by
  rw [← AnalysisBlobs.restored_eq_self]
  constructor
  · exact fun hsame => congrArg analysis hsame
  · exact fun hsame => AnalysisProgress.ext rfl hsame

end AnalysisProgress

end AnalysisBlobs

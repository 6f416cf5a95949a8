import Kithara.DecryptOnCommit

/-! The chunked decryption against the decryption of the whole buffer. -/
namespace DecryptChunks

open BlockChaining StorageMemory DecryptOnCommit

def wholePlaintext (aes : Aes128) (ctx : DecryptContext) (bytes : List UInt8) :
    Option (List UInt8) :=
  if aesBlockSize ∣ bytes.length then
    unpad aesBlockSize (cbcDecrypt (aes.decryptBlock ctx.key) ctx.iv bytes)
  else none

/-- What the commit of `raw` owes: the last-chunk flag goes to the call that carries the final
bytes and to no other, no write passes the bytes read, and the commit answers an error that
publishes nothing or publishes the whole plaintext. -/
structure DecryptsWhole (aes : Aes128) (ctx : DecryptContext) (raw : RawResource) (finalLen : ℕ)
    (outcome : Outcome) : Prop where
  lastFlag : ∀ call ∈ outcome.calls, call.isLast = true ↔ call.readOffset + call.read = finalLen
  inPlace : ∀ call ∈ outcome.calls, call.writeOffset ≤ call.readOffset ∧
    call.writeOffset + call.written ≤ call.readOffset + call.read
  refused : ∀ error, outcome.result = .error error → outcome.committed = raw.committed
  whole : outcome.result = .ok () → finalLen ≤ raw.working.length ∧
    ∃ plain, wholePlaintext aes ctx (raw.working.take finalLen) = some plain ∧
      outcome.committed = some plain

/-- The reads from one offset on, while the passes go on: a read whose request reaches the end
delivers all of it, and no read finds the resource already at its end, unless the inner commit
fails anyway. -/
def TailWhole (backing : Backing) (stored finalLen chunkSize call offset : ℕ) : Prop :=
  if offset < finalLen then
    match backing.readInflight call (min (finalLen - offset) chunkSize) (stored - offset) with
    | .error _ => True
    | .ok read =>
      if read = 0 then backing.commit ≠ .ok ()
      else if finalLen ≤ offset + chunkSize then read = finalLen - offset
      else aesBlockSize ∣ read → backing.write call = .ok () →
        TailWhole backing stored finalLen chunkSize (call + 1) (offset + read)
  else True
termination_by finalLen - offset
decreasing_by omega

/-- The same from the first read on, where both buffers were granted. -/
def ReadsWhole (backing : Backing) (stored finalLen chunkSize : ℕ) : Prop :=
  backing.inputBuffer = .ok () → backing.outputBuffer = .ok () →
    TailWhole backing stored finalLen chunkSize 0 0

variable {aes : Aes128} {ctx sink : DecryptContext} {raw : List UInt8} {backing : Backing}
  {finalLen chunkSize offset read : ℕ}

def CallSound (finalLen : ℕ) (call : SinkCall) : Prop :=
  (call.isLast = true ↔ call.readOffset + call.read = finalLen) ∧
    call.writeOffset ≤ call.readOffset ∧
    call.writeOffset + call.written ≤ call.readOffset + call.read

def Settled (aes : Aes128) (ctx : DecryptContext) (backing : Backing) (raw : List UInt8)
    (finalLen : ℕ) : StorageResult (List UInt8 × ℕ) → Prop
  | .error _ => True
  | .ok (working, len) => backing.commit = .ok () → finalLen ≤ raw.length ∧
      wholePlaintext aes ctx (raw.take finalLen) = some (working.take len)

theorem decryptsWhole_iff {σ : Type*} (w : ProcessedWriter σ) (calls : List SinkCall)
    (result : StorageResult (List UInt8 × ℕ)) :
    DecryptsWhole aes ctx w.inner finalLen (w.finish backing true
        (calls, result.map fun done => (done.1, some done.2))) ↔
      (∀ call ∈ calls, CallSound finalLen call) ∧
        Settled aes ctx backing w.inner.working finalLen result := by
  have hcalls : (w.finish backing true
      (calls, result.map fun done => (done.1, some done.2))).calls = calls := by
    cases result with
    | error error => rfl
    | ok done =>
      rw [Except.map, ProcessedWriter.finish]
      cases backing.commit <;> rfl
  constructor
  · intro h
    refine ⟨fun call hcall => ?_, ?_⟩
    · rw [← hcalls] at hcall
      exact ⟨h.lastFlag call hcall, h.inPlace call hcall⟩
    · cases result with
      | error error => trivial
      | ok done =>
        intro hcommit
        have hfinish : w.finish backing true (calls, Except.map
            (fun done => (done.1, some done.2)) (.ok done)) =
            { calls, result := .ok (), committed := some (done.1.take done.2)
              gate := w.gate.markReady } := by
          rw [Except.map, ProcessedWriter.finish, hcommit]
          rfl
        rw [hfinish] at h
        obtain ⟨hle, plain, hplain, hcommitted⟩ := h.whole rfl
        exact ⟨hle, hplain.trans hcommitted.symm⟩
  · rintro ⟨hsound, hsettled⟩
    refine ⟨?_, ?_, ?_, ?_⟩
    · rw [hcalls]
      exact fun call hcall => (hsound call hcall).1
    · rw [hcalls]
      exact fun call hcall => (hsound call hcall).2
    · intro error herror
      cases result with
      | error error => rfl
      | ok done =>
        rw [Except.map, ProcessedWriter.finish] at herror ⊢
        cases hcommit : backing.commit with
        | error error => rfl
        | ok _ =>
          rw [hcommit] at herror
          cases herror
    · intro hok
      cases result with
      | error error => cases hok
      | ok done =>
        rw [Except.map, ProcessedWriter.finish] at hok ⊢
        cases hcommit : backing.commit with
        | error error =>
          rw [hcommit] at hok
          cases hok
        | ok _ =>
          obtain ⟨hle, hplain⟩ := hsettled hcommit
          exact ⟨hle, _, hplain, rfl⟩

/-- The passes that end at `offset` decrypted what lies before it in place: the rest is still
ciphertext, and the sink holds the last block that was overwritten. -/
structure Reached (aes : Aes128) (ctx : DecryptContext) (raw : List UInt8) (offset : ℕ)
    (sink : DecryptContext) (working : List UInt8) : Prop where
  aligned : aesBlockSize ∣ offset
  stored : offset ≤ raw.length
  key : sink.key = ctx.key
  iv : sink.iv = if offset = 0 then ctx.iv else lastBlock aesBlockSize (raw.take offset)
  working : working =
    cbcDecrypt (aes.decryptBlock ctx.key) ctx.iv (raw.take offset) ++ raw.drop offset

theorem chunk_unaligned (aes : Aes128) (sink : DecryptContext) (isLast : Bool) {input : List UInt8}
    (hne : input ≠ [])
    (h : ¬ aesBlockSize ∣ input.length) :
    ∃ message, aes128CbcProcessChunk aes sink input isLast = (.error message, sink) := by
  have hmod : input.length % aesBlockSize ≠ 0 := fun hzero => h (Nat.dvd_of_mod_eq_zero hzero)
  rw [aes128CbcProcessChunk, if_neg (by simpa using hne), if_pos hmod]
  exact ⟨_, rfl⟩

theorem chunk_middle (aes : Aes128) (sink : DecryptContext) {input : List UInt8} (hne : input ≠ [])
    (h : aesBlockSize ∣ input.length) :
    aes128CbcProcessChunk aes sink input false =
      (.ok (cbcDecrypt (aes.decryptBlock sink.key) sink.iv input),
        { sink with iv := lastBlock aesBlockSize input }) := by
  have hmod : ¬ input.length % aesBlockSize ≠ 0 := not_not_intro (Nat.mod_eq_zero_of_dvd h)
  rw [aes128CbcProcessChunk, if_neg (by simpa using hne), if_neg hmod]
  rfl

theorem chunk_last (aes : Aes128) (sink : DecryptContext) {input : List UInt8} (hne : input ≠ [])
    (h : aesBlockSize ∣ input.length) :
    (∃ message, aes128CbcProcessChunk aes sink input true = (.error message, sink)) ∨
      ∃ out, unpad aesBlockSize (cbcDecrypt (aes.decryptBlock sink.key) sink.iv input) = some out ∧
        aes128CbcProcessChunk aes sink input true = (.ok out, sink) := by
  have hmod : ¬ input.length % aesBlockSize ≠ 0 := not_not_intro (Nat.mod_eq_zero_of_dvd h)
  rw [aes128CbcProcessChunk, if_neg (by simpa using hne), if_neg hmod]
  dsimp only
  cases unpad aesBlockSize (cbcDecrypt (aes.decryptBlock sink.key) sink.iv input) with
  | none => exact .inl ⟨_, rfl⟩
  | some out => exact .inr ⟨out, rfl, rfl⟩

namespace Reached

variable {working : List UInt8} (h : Reached aes ctx raw offset sink working)
include h

theorem plain_length : (cbcDecrypt (aes.decryptBlock ctx.key) ctx.iv (raw.take offset)).length =
    offset := by
  have hlen : (raw.take offset).length = offset := List.length_take_of_le h.stored
  rw [cbcDecrypt_length (by rw [hlen]; exact h.aligned), hlen]

theorem working_length : working.length = raw.length := by
  rw [h.working, List.length_append, h.plain_length, List.length_drop]
  exact Nat.add_sub_cancel' h.stored

theorem input : (working.drop offset).take read = (raw.drop offset).take read := by
  have hdrop : working.drop offset = raw.drop offset := by
    rw [h.working, List.drop_append_of_le_length (Nat.le_of_eq h.plain_length.symm),
      List.drop_of_length_le (Nat.le_of_eq h.plain_length), List.nil_append]
  rw [hdrop]

theorem decrypt_append (piece : List UInt8) :
    cbcDecrypt (aes.decryptBlock ctx.key) ctx.iv (raw.take offset ++ piece) =
      cbcDecrypt (aes.decryptBlock ctx.key) ctx.iv (raw.take offset) ++
        cbcDecrypt (aes.decryptBlock sink.key) sink.iv piece := by
  rw [h.key, h.iv]
  by_cases hzero : offset = 0
  · subst hzero
    rw [if_pos rfl, List.take_zero, List.nil_append]
    rfl
  · rw [if_neg hzero]
    have hlen : (raw.take offset).length = offset := List.length_take_of_le h.stored
    exact cbcDecrypt_append (by decide) (by rw [hlen]; exact h.aligned)
      (by rw [hlen]; exact Nat.pos_of_ne_zero hzero)

theorem overwrite {output : List UInt8} (hread : offset + read ≤ raw.length)
    (hle : output.length ≤ read) :
    overwrite working offset output =
      cbcDecrypt (aes.decryptBlock ctx.key) ctx.iv (raw.take offset) ++ output ++
        raw.drop (offset + output.length) := by
  have hgrown : ensureLen working (offset + output.length) = working := by
    rw [ensureLen, h.working_length, Nat.sub_eq_zero_of_le (by omega), List.replicate_zero,
      List.append_nil]
  have htake : working.take offset =
      cbcDecrypt (aes.decryptBlock ctx.key) ctx.iv (raw.take offset) := by
    rw [h.working]
    exact List.take_left' h.plain_length
  have hdrop : working.drop (offset + output.length) = raw.drop (offset + output.length) := by
    rw [h.working, ← List.drop_drop, List.drop_left' h.plain_length, List.drop_drop]
  rw [DecryptOnCommit.overwrite, hgrown, htake, hdrop]

theorem advance (hread : offset + read ≤ raw.length) (hblocks : aesBlockSize ∣ read)
    (hpos : 0 < read) :
    Reached aes ctx raw (offset + read)
      { sink with iv := lastBlock aesBlockSize ((raw.drop offset).take read) }
      (DecryptOnCommit.overwrite working offset
        (cbcDecrypt (aes.decryptBlock sink.key) sink.iv ((raw.drop offset).take read))) := by
  have hpiece : ((raw.drop offset).take read).length = read :=
    List.length_take_of_le (by rw [List.length_drop]; omega)
  have hplain : (cbcDecrypt (aes.decryptBlock sink.key) sink.iv
      ((raw.drop offset).take read)).length = read := by
    rw [cbcDecrypt_length (by rw [hpiece]; exact hblocks), hpiece]
  have htake : raw.take (offset + read) = raw.take offset ++ (raw.drop offset).take read :=
    List.take_add
  refine ⟨Nat.dvd_add h.aligned hblocks, hread, h.key, ?_, ?_⟩
  · rw [if_neg (by omega), htake]
    exact (lastBlock_append (by rw [hpiece]; exact Nat.le_of_dvd hpos hblocks)).symm
  · rw [h.overwrite hread (Nat.le_of_eq hplain), hplain, htake, h.decrypt_append]

theorem plaintext (hread : offset + read = finalLen) (hle : finalLen ≤ raw.length)
    (hblocks : aesBlockSize ∣ read) (hpos : 0 < read) :
    wholePlaintext aes ctx (raw.take finalLen) =
      (unpad aesBlockSize (cbcDecrypt (aes.decryptBlock sink.key) sink.iv
        ((raw.drop offset).take read))).map
        (cbcDecrypt (aes.decryptBlock ctx.key) ctx.iv (raw.take offset) ++ ·) := by
  have hpiece : ((raw.drop offset).take read).length = read :=
    List.length_take_of_le (by rw [List.length_drop]; omega)
  have htake : raw.take finalLen = raw.take offset ++ (raw.drop offset).take read := by
    rw [← hread]
    exact List.take_add
  have hlen : (raw.take finalLen).length = offset + read := by
    rw [List.length_take_of_le hle, hread]
  rw [wholePlaintext, if_pos (by rw [hlen]; exact Nat.dvd_add h.aligned hblocks), htake,
    h.decrypt_append]
  apply unpad_append (by decide)
  rw [cbcDecrypt_length (by rw [hpiece]; exact hblocks), hpiece]
  exact Nat.le_of_dvd hpos hblocks

end Reached

section

variable {σ : Type*} {processor : ResourceProcessor σ} {call writeOffset : ℕ} {s s' : σ}
  {working output : List UInt8} (hoffset : offset < finalLen)
include hoffset

theorem loop_failed {error : StorageError} (hread : backing.readInflight call
    (min (finalLen - offset) chunkSize) (working.length - offset) = .error error) :
    processLoop backing processor finalLen chunkSize call s working offset writeOffset =
      ([], .error error) := by
  rw [processLoop, if_pos hoffset]
  simp only [hread]

theorem loop_empty (hread : backing.readInflight call
    (min (finalLen - offset) chunkSize) (working.length - offset) = .ok 0) :
    processLoop backing processor finalLen chunkSize call s working offset writeOffset =
      ([], .ok (working, writeOffset)) := by
  rw [processLoop, if_pos hoffset]
  simp only [hread, if_true]

variable (hread : backing.readInflight call (min (finalLen - offset) chunkSize)
    (working.length - offset) = .ok read) (hzero : read ≠ 0) {isLast : Bool}
  (hlast : decide (finalLen ≤ offset + min (finalLen - offset) chunkSize) = isLast)
include hread hzero hlast

theorem loop_refused {message : String} (hprocess : processor.process s
    ((working.drop offset).take read) isLast = (.error message, s')) :
    processLoop backing processor finalLen chunkSize call s working offset writeOffset =
      ([⟨offset, writeOffset, read, 0, isLast⟩], .error (.failed message)) := by
  rw [processLoop, if_pos hoffset]
  simp only [hread, if_neg hzero, hlast, hprocess, writtenOf]

theorem loop_unwritten {error : StorageError} (hprocess : processor.process s
    ((working.drop offset).take read) isLast = (.ok output, s'))
    (hwrite : backing.write call = .error error) :
    processLoop backing processor finalLen chunkSize call s working offset writeOffset =
      ([⟨offset, writeOffset, read, output.length, isLast⟩], .error error) := by
  rw [processLoop, if_pos hoffset]
  simp only [hread, if_neg hzero, hlast, hprocess, hwrite, writtenOf]

theorem loop_passed (hprocess : processor.process s ((working.drop offset).take read) isLast =
    (.ok output, s')) (hwrite : backing.write call = .ok ()) :
    processLoop backing processor finalLen chunkSize call s working offset writeOffset =
      (⟨offset, writeOffset, read, output.length, isLast⟩ ::
        (processLoop backing processor finalLen chunkSize (call + 1) s'
          (overwrite working writeOffset output) (offset + read)
          (writeOffset + output.length)).1,
        (processLoop backing processor finalLen chunkSize (call + 1) s'
          (overwrite working writeOffset output) (offset + read)
          (writeOffset + output.length)).2) := by
  rw [processLoop, if_pos hoffset]
  simp only [hread, if_neg hzero, hlast, hprocess, hwrite, writtenOf]

end

def Meets (aes : Aes128) (ctx : DecryptContext) (backing : Backing) (raw : List UInt8)
    (finalLen : ℕ) (run : List SinkCall × StorageResult (List UInt8 × ℕ)) : Prop :=
  (∀ c ∈ run.1, CallSound finalLen c) ∧ Settled aes ctx backing raw finalLen run.2

theorem meets_error (error : StorageError) : Meets aes ctx backing raw finalLen ([], .error error) :=
  ⟨fun _ hc => absurd hc List.not_mem_nil, trivial⟩

theorem meets_cons {call : SinkCall} {run : List SinkCall × StorageResult (List UInt8 × ℕ)}
    (hcall : CallSound finalLen call) :
    Meets aes ctx backing raw finalLen (call :: run.1, run.2) ↔
      Meets aes ctx backing raw finalLen run := by
  rw [Meets, Meets, List.forall_mem_cons]
  exact and_congr_left fun _ => and_iff_right hcall

theorem meets_refused {call : SinkCall} (hcall : CallSound finalLen call) (error : StorageError) :
    Meets aes ctx backing raw finalLen ([call], .error error) :=
  ⟨fun c hc => by rw [List.mem_singleton.mp hc]; exact hcall, trivial⟩

theorem loop_done {σ : Type*} {processor : ResourceProcessor σ} {call writeOffset : ℕ} {s : σ}
    {working : List UInt8} (h : ¬ offset < finalLen) :
    processLoop backing processor finalLen chunkSize call s working offset writeOffset =
      ([], .ok (working, writeOffset)) := by
  rw [processLoop, if_neg h]

section

variable {call : ℕ} {working : List UInt8} (h : Reached aes ctx raw offset sink working)
  (hoffset : offset < finalLen) (hread : backing.readInflight call
    (min (finalLen - offset) chunkSize) (working.length - offset) = .ok read)
include h hread

theorem piece_fits : read ≤ raw.length - offset := by
  rw [← h.working_length]
  exact Nat.le_trans (backing.read_le hread) (Nat.min_le_right ..)

theorem piece_length : ((raw.drop offset).take read).length = read := by
  apply List.length_take_of_le
  rw [List.length_drop]
  exact piece_fits h hread

variable (hzero : read ≠ 0)
include hzero

theorem piece_ne : (working.drop offset).take read ≠ [] := by
  intro hnil
  have hlen := piece_length h hread
  rw [h.input] at hnil
  rw [hnil, List.length_nil] at hlen
  exact hzero hlen.symm

include hoffset

theorem flagged_meets (hlast : finalLen ≤ offset + chunkSize) (hwhole : read = finalLen - offset) :
    Meets aes ctx backing raw finalLen (processLoop backing (decryptProcessor aes ctx) finalLen
      chunkSize call sink working offset offset) := by
  have hflag : decide (finalLen ≤ offset + min (finalLen - offset) chunkSize) = true :=
    decide_eq_true (by omega)
  have hfits := piece_fits h hread
  have hfit : offset + read ≤ raw.length := by omega
  have hlen := piece_length h hread
  have hne := piece_ne h hread hzero
  have hsound {written : ℕ} (hle : written ≤ read) :
      CallSound finalLen ⟨offset, offset, read, written, true⟩ :=
    ⟨iff_of_true rfl (by dsimp only; omega), Nat.le_refl _, Nat.add_le_add_left hle _⟩
  by_cases hblocks : aesBlockSize ∣ ((working.drop offset).take read).length
  · obtain ⟨message, hprocess⟩ | ⟨out, hpad, hprocess⟩ :=
      chunk_last aes sink hne hblocks
    · rw [loop_refused hoffset hread hzero hflag hprocess]
      exact meets_refused (hsound (Nat.zero_le _)) _
    · rw [h.input] at hpad hblocks
      rw [hlen] at hblocks
      have hout : out.length ≤ read := by
        have hle := (unpad_shorter hpad).le
        rwa [cbcDecrypt_length (by rw [hlen]; exact hblocks), hlen] at hle
      cases hwrite : backing.write call with
      | error error =>
        rw [loop_unwritten hoffset hread hzero hflag hprocess hwrite]
        exact meets_refused (hsound hout) _
      | ok _ =>
        rw [loop_passed hoffset hread hzero hflag hprocess hwrite, loop_done (by omega),
          h.overwrite hfit hout]
        refine (meets_cons (hsound hout)).mpr ⟨fun _ hc => absurd hc List.not_mem_nil, ?_⟩
        intro _
        have hend : offset + read = finalLen := by omega
        have hle : finalLen ≤ raw.length := hend ▸ hfit
        have hplain := h.plaintext hend hle hblocks (Nat.pos_of_ne_zero hzero)
        refine ⟨hle, ?_⟩
        rw [hplain, hpad, Option.map_some]
        congr 1
        rw [List.take_left' (by rw [List.length_append, h.plain_length])]
  · obtain ⟨message, hprocess⟩ := chunk_unaligned aes sink true hne hblocks
    rw [loop_refused hoffset hread hzero hflag hprocess]
    exact meets_refused (hsound (Nat.zero_le _)) _

omit h in
theorem flagged_short (hlast : finalLen ≤ offset + chunkSize) (hshort : read ≠ finalLen - offset) :
    ¬ Meets aes ctx backing raw finalLen (processLoop backing (decryptProcessor aes ctx) finalLen
      chunkSize call sink working offset offset) := by
  have hflag : decide (finalLen ≤ offset + min (finalLen - offset) chunkSize) = true :=
    decide_eq_true (by omega)
  rintro ⟨hsound, _⟩
  have hmade : ∃ written, ⟨offset, offset, read, written, true⟩ ∈ (processLoop backing
      (decryptProcessor aes ctx) finalLen chunkSize call sink working offset offset).1 := by
    generalize hprocess : (decryptProcessor aes ctx).process sink
      ((working.drop offset).take read) true = made
    obtain ⟨output, sink'⟩ := made
    cases output with
    | error message =>
      rw [loop_refused hoffset hread hzero hflag hprocess]
      exact ⟨_, List.mem_cons_self⟩
    | ok output =>
      cases hwrite : backing.write call with
      | error error =>
        rw [loop_unwritten hoffset hread hzero hflag hprocess hwrite]
        exact ⟨_, List.mem_cons_self⟩
      | ok _ =>
        rw [loop_passed hoffset hread hzero hflag hprocess hwrite]
        exact ⟨_, List.mem_cons_self⟩
  obtain ⟨written, hmem⟩ := hmade
  have hend : offset + read = finalLen := (hsound _ hmem).1.mp rfl
  omega

end

theorem loop_iff (hchunk : 0 < chunkSize) {call : ℕ} {working : List UInt8}
    (h : Reached aes ctx raw offset sink working) (hoffset : offset < finalLen) :
    Meets aes ctx backing raw finalLen (processLoop backing (decryptProcessor aes ctx) finalLen
        chunkSize call sink working offset offset) ↔
      TailWhole backing raw.length finalLen chunkSize call offset := by
  induction hn : finalLen - offset using Nat.strong_induction_on
    generalizing offset sink working call with
  | _ n ih =>
    rw [TailWhole, if_pos hoffset, ← h.working_length]
    cases hread : backing.readInflight call (min (finalLen - offset) chunkSize)
      (working.length - offset) with
    | error error =>
      rw [loop_failed hoffset hread]
      exact iff_of_true (meets_error error) trivial
    | ok read =>
      dsimp only
      by_cases hzero : read = 0
      · subst hzero
        have hend := backing.read_pos hread
        rw [h.working_length] at hend
        rw [loop_empty hoffset hread, if_pos rfl]
        constructor
        · rintro ⟨_, hsettled⟩ hcommit
          have hle := (hsettled hcommit).1
          omega
        · exact fun hcommit => ⟨fun _ hc => absurd hc List.not_mem_nil,
            fun hok => absurd hok hcommit⟩
      rw [if_neg hzero]
      by_cases hlast : finalLen ≤ offset + chunkSize
      · rw [if_pos hlast]
        exact ⟨fun hmeets => by_contra fun hshort =>
            flagged_short hoffset hread hzero hlast hshort hmeets,
          flagged_meets h hoffset hread hzero hlast⟩
      rw [if_neg hlast]
      have hflag : decide (finalLen ≤ offset + min (finalLen - offset) chunkSize) = false :=
        decide_eq_false (by omega)
      have hle := Nat.le_trans (backing.read_le hread) (Nat.min_le_left ..)
      have hfits := piece_fits h hread
      have hlen := piece_length h hread
      have hne := piece_ne h hread hzero
      have hsound {written : ℕ} (hwritten : written ≤ read) :
          CallSound finalLen ⟨offset, offset, read, written, false⟩ :=
        ⟨iff_of_false Bool.false_ne_true (by dsimp only; omega), Nat.le_refl _,
          Nat.add_le_add_left hwritten _⟩
      by_cases hblocks : aesBlockSize ∣ read
      · have hprocess := chunk_middle aes sink hne
          (by rw [h.input, hlen]; exact hblocks)
        have hout : (cbcDecrypt (aes.decryptBlock sink.key) sink.iv
            ((working.drop offset).take read)).length = read := by
          rw [cbcDecrypt_length, h.input, hlen]
          rw [h.input, hlen]
          exact hblocks
        cases hwrite : backing.write call with
        | error error =>
          rw [loop_unwritten hoffset hread hzero hflag hprocess hwrite, hout]
          refine iff_of_true (meets_refused (hsound (Nat.le_refl _)) _) fun _ hok => ?_
          cases hok
        | ok _ =>
          have hfit : offset + read ≤ raw.length := by omega
          have hnext := h.advance hfit hblocks (Nat.pos_of_ne_zero hzero)
          rw [loop_passed hoffset hread hzero hflag hprocess hwrite, hout,
            meets_cons (hsound (Nat.le_refl _)), h.input,
            ih (finalLen - (offset + read)) (by omega) hnext (by omega) rfl, h.working_length]
          exact ⟨fun htail _ _ => htail, fun htail => htail hblocks rfl⟩
      · obtain ⟨message, hprocess⟩ := chunk_unaligned aes sink false hne
          (by rw [h.input, hlen]; exact hblocks)
        rw [loop_refused hoffset hread hzero hflag hprocess]
        exact iff_of_true (meets_refused (hsound (Nat.zero_le _)) _) fun hdvd =>
          absurd hdvd hblocks

theorem reached_start : Reached aes ctx raw 0 ctx raw where
  aligned := Nat.dvd_zero _
  stored := Nat.zero_le _
  key := rfl
  iv := (if_pos rfl).symm
  working := by rw [List.take_zero]; rfl

theorem runs_iff (aes : Aes128) (ctx : DecryptContext) (hlen : 0 < finalLen)
    (hchunk : 0 < chunkSize) :
    Meets aes ctx backing raw finalLen
        (runProcess backing (decryptProcessor aes ctx) raw finalLen chunkSize) ↔
      ReadsWhole backing raw.length finalLen chunkSize := by
  rw [ReadsWhole, runProcess]
  cases backing.inputBuffer with
  | error error => exact iff_of_true (meets_error _) fun hok => by cases hok
  | ok _ =>
    cases backing.outputBuffer with
    | error error => exact iff_of_true (meets_error _) fun _ hok => by cases hok
    | ok _ =>
      exact (loop_iff hchunk reached_start hlen).trans ⟨fun h _ _ => h, fun h => h rfl rfl⟩

theorem commit_iff (aes : Aes128) (ctx : DecryptContext) (raw : RawResource) (hlen : 0 < finalLen) :
    DecryptsWhole aes ctx raw finalLen ((ProcessedWriter.new raw
        (some (decryptProcessor aes ctx)) chunkSize).commit backing (some finalLen)) ↔
      Meets aes ctx backing raw.working finalLen
        (runProcess backing (decryptProcessor aes ctx) raw.working finalLen chunkSize) := by
  have hcommit : (ProcessedWriter.new raw (some (decryptProcessor aes ctx)) chunkSize).commit
      backing (some finalLen) =
      (ProcessedWriter.new raw (some (decryptProcessor aes ctx)) chunkSize).finish backing true
        ((runProcess backing (decryptProcessor aes ctx) raw.working finalLen chunkSize).1,
          (runProcess backing (decryptProcessor aes ctx) raw.working finalLen chunkSize).2.map
            fun done => (done.1, some done.2)) := if_pos hlen
  rw [hcommit]
  exact decryptsWhole_iff (ProcessedWriter.new raw (some (decryptProcessor aes ctx)) chunkSize) _ _

/-- A commit decrypts the whole buffer or publishes nothing exactly where the reads are whole at
the end: a short read of the last request is taken for the end of the message, and a resource that
ends early is committed as it stands. -/
theorem decrypts_whole_iff_reads_whole (aes : Aes128) (ctx : DecryptContext) (raw : RawResource)
    (backing : Backing) (finalLen chunkSize : ℕ) (hlen : 0 < finalLen)
    (hchunk : 0 < chunkSize) :
    DecryptsWhole aes ctx raw finalLen ((ProcessedWriter.new raw
        (some (decryptProcessor aes ctx)) chunkSize).commit backing (some finalLen)) ↔
      ReadsWhole backing raw.working.length finalLen chunkSize :=
  (commit_iff aes ctx raw hlen).trans (runs_iff aes ctx hlen hchunk)

/-- A backing whose reads deliver at most `most + 1` bytes at a time. -/
def pieces (most : ℕ) : Backing where
  inputBuffer := .ok ()
  outputBuffer := .ok ()
  readInflight _ requested stored := .ok (min (most + 1) (min requested stored))
  read_le h := by
    cases h
    exact Nat.min_le_right ..
  read_pos h := by
    have hzero := Except.ok.inj h
    omega
  write _ := .ok ()
  commit := .ok ()

/-- Every block decrypts to itself, under a zero key and a zero first value. -/
def mirror : Aes128 × DecryptContext :=
  (⟨fun _ block => block, "padding error"⟩, ⟨Vector.replicate _ 0, Vector.replicate _ 0⟩)

theorem two_chunks_decrypted :
    DecryptsWhole mirror.1 mirror.2 ⟨List.replicate 16 1 ++ List.replicate 16 3, none⟩ 32
      ((ProcessedWriter.new ⟨List.replicate 16 1 ++ List.replicate 16 3, none⟩
        (some (decryptProcessor mirror.1 mirror.2)) 16).commit (pieces 15) (some 32)) := by
  refine (decrypts_whole_iff_reads_whole mirror.1 mirror.2
    ⟨List.replicate 16 1 ++ List.replicate 16 3, none⟩ (pieces 15) 32 16 (by decide)
    (by decide)).mpr fun _ _ => ?_
  have hlast : TailWhole (pieces 15) 32 32 16 1 16 := by
    rw [TailWhole, if_pos (by decide)]
    exact (rfl : 16 = 32 - 16)
  rw [TailWhole, if_pos (by decide)]
  exact fun _ _ => hlast

/-- Sixteen bytes committed as thirty-two, and thirty-two bytes whose only request is delivered
in two halves. -/
theorem short_resource_committed :
    ¬ DecryptsWhole mirror.1 mirror.2 ⟨List.replicate 16 1, none⟩ 32
        ((ProcessedWriter.new ⟨List.replicate 16 1, none⟩
          (some (decryptProcessor mirror.1 mirror.2)) 16).commit (pieces 15) (some 32)) ∧
      ¬ DecryptsWhole mirror.1 mirror.2 ⟨List.replicate 32 1, none⟩ 32
        ((ProcessedWriter.new ⟨List.replicate 32 1, none⟩
          (some (decryptProcessor mirror.1 mirror.2)) 32).commit (pieces 15) (some 32)) := by
  constructor
  · rw [commit_iff _ _ _ (by decide), runs_iff _ _ (by decide) (by decide), List.length_replicate]
    intro h
    have htail := h rfl rfl
    rw [TailWhole, if_pos (by decide)] at htail
    have hend : TailWhole (pieces 15) 16 32 16 1 16 := htail (by decide) rfl
    rw [TailWhole, if_pos (by decide)] at hend
    exact hend rfl
  · rw [commit_iff _ _ _ (by decide), runs_iff _ _ (by decide) (by decide), List.length_replicate]
    intro h
    have htail := h rfl rfl
    rw [TailWhole, if_pos (by decide)] at htail
    have hshort : 16 = 32 := htail
    exact absurd hshort (by decide)

end DecryptChunks

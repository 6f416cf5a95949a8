import Kithara.GaplessErrors

/-! What a whole stream comes to, however it is chunked: the frames between the leading and the
trailing trim, faded by their position, each with its own offset and source position. Before the end
the last frames are held back, and nothing else is. -/
namespace GaplessWindow

open SpanMapping SpanCuts GaplessChunks GaplessChunks.AudioChunk GaplessFade HeldBlocks
open GaplessTrimmer GaplessErrors SeekGeometry

variable {S C : Type}

def frames (chunks : List (AudioChunk S C)) : ℕ := total chunkFrames chunks

@[simp] theorem frames_append (front back : List (AudioChunk S C)) :
    frames (front ++ back) = frames front + frames back := total_append _ _ _

@[simp] theorem frames_singleton (c : AudioChunk S C) : frames [c] = c.chunkFrames := by
  simp [frames]

variable [ExponentialApproach C]

def Cuttable (chunks : List (AudioChunk S C)) (position : ℕ) : Prop :=
  ∀ before c after, chunks = before ++ c :: after → frames before < position →
    position < frames before + c.chunkFrames → CutReadable c (position - frames before)

/-- Each emitted chunk is a cut of a pushed one, at its place past the leading trim. -/
def Placed (pushed : List (AudioChunk S C)) (leading : ℕ) (emitted : List (AudioChunk S C)) :
    Prop :=
  ∀ front e back, emitted = front ++ e :: back → ∃ before c after a,
    pushed = before ++ c :: after ∧ CutFrom c a e ∧ frames before + a = leading + frames front

theorem length_frames (chunks : List (AudioChunk S C)) :
    (spelled audio chunks).length = frames chunks := length_spelled length_audio chunks

theorem placed_nil (pushed : List (AudioChunk S C)) (leading : ℕ) : Placed pushed leading [] := by
  intro front e back h
  simp at h

theorem placed_push {pushed emitted : List (AudioChunk S C)} {leading : ℕ}
    (h : Placed pushed leading emitted) (chunk : AudioChunk S C) :
    Placed (pushed ++ [chunk]) leading emitted := by
  intro front e back hsplit
  obtain ⟨before, c, after, a, rfl, hcut, hplace⟩ := h front e back hsplit
  exact ⟨before, c, after ++ [chunk], a, by simp, hcut, hplace⟩

theorem cuttable_front {front back : List (AudioChunk S C)} {position : ℕ}
    (h : Cuttable (front ++ back) position) : Cuttable front position := by
  intro before c after hsplit
  exact h before c (after ++ back) (by rw [hsplit]; simp)

theorem placed_concat {pushed emitted : List (AudioChunk S C)} {leading : ℕ} {e : AudioChunk S C}
    (h : Placed pushed leading emitted)
    (he : ∃ before c after a, pushed = before ++ c :: after ∧ CutFrom c a e ∧
      frames before + a = leading + frames emitted) : Placed pushed leading (emitted ++ [e]) := by
  intro front f back hsplit
  rcases List.append_eq_append_iff.mp hsplit with ⟨rest, rfl, hrest⟩ | ⟨rest, rfl, hrest⟩
  · cases rest with
    | nil =>
      obtain ⟨rfl, rfl⟩ := List.cons.inj hrest
      rwa [List.append_nil]
    | cons x xs => simp at hrest
  · cases rest with
    | nil =>
      rw [List.nil_append] at hrest
      obtain ⟨rfl, rfl⟩ := List.cons.inj hrest
      rwa [List.append_nil] at he
    | cons x xs =>
      obtain ⟨rfl, hback⟩ := List.cons.inj hrest
      exact h front f xs rfl

theorem placed_front {pushed front back : List (AudioChunk S C)} {leading : ℕ}
    (h : Placed pushed leading (front ++ back)) : Placed pushed leading front := by
  intro first e rest hsplit
  exact h first e (rest ++ back) (by rw [hsplit]; simp)

theorem placed_snoc {pushed emitted : List (AudioChunk S C)} {leading a : ℕ}
    {chunk e : AudioChunk S C} (h : Placed pushed leading emitted) (hcut : CutFrom chunk a e)
    (hplace : frames pushed + a = leading + frames emitted) :
    Placed (pushed ++ [chunk]) leading (emitted ++ [e]) :=
  placed_concat (placed_push h chunk) ⟨pushed, chunk, [], a, rfl, hcut, hplace⟩

theorem placed_trim {pushed out : List (AudioChunk S C)} {leading trimFrames : ℕ}
    {b left : BufferedChunks S C} {result : Except DecodeError Unit} (hb : Held b)
    (htrim : b.trim trimFrames = (result, left)) (h : Placed pushed leading (out ++ b.chunks)) :
    Placed pushed leading (out ++ left.chunks) := by
  obtain ⟨gone, hwhole | ⟨older, c, kept, hchunks, hleft, hcut⟩⟩ := trim_split hb htrim
  · rw [hwhole, ← List.append_assoc] at h
    exact placed_front h
  · rw [hchunks, ← List.append_assoc] at h
    obtain ⟨before, d, after, a, hpushed, hfrom, hplace⟩ := h (out ++ older) c gone rfl
    rw [hleft, ← List.append_assoc]
    exact placed_concat (placed_front h) ⟨before, d, after, a, hpushed, hfrom.comp hcut, hplace⟩

variable [RaisedCosine S]

def pushAll (t : Trimmer S C) : List (AudioChunk S C) →
    Except DecodeError (List (AudioChunk S C) × Trimmer S C)
  | [] => .ok ([], t)
  | c :: rest =>
    match t.push c with
    | (.error e, _) => .error e
    | (.ok ready, t) =>
      match pushAll t rest with
      | .error e => .error e
      | .ok (later, t) => .ok (ready ++ later, t)

/-- The trimmers of the two sources, with the trims and the fade they stand for. -/
inductive Built : ℕ → ℕ → ℕ → Option GaplessTailCompensation → Trimmer S C → Prop where
  | ofInfo (info : GaplessInfo) (compensation : Option GaplessTailCompensation) :
      Built info.leadingFrames info.trailingFrames 0 compensation
        ((Trimmer.ofInfo info).withTailCompensation compensation)
  | codecPriming (leading sampleRate : ℕ) (compensation : Option GaplessTailCompensation) :
      Built leading 0
        (if leading = 0 then 0 else (FadeInState.forSampleRate sampleRate).totalFrames)
        compensation ((Trimmer.codecPriming leading sampleRate).withTailCompensation compensation)

def compensated (compensation : Option GaplessTailCompensation) (pushed : ℕ) : ℕ :=
  match compensation with
  | none => 0
  | some compensation => min 1 (compensation.idealPreTrimFrames - pushed)

def trailingTrim (leading trailing : ℕ) (compensation : Option GaplessTailCompensation)
    (pushed : ℕ) : ℕ :=
  min (pushed - min leading pushed) (trailing - compensated compensation pushed)

/-- The frames from `leading` to the trailing trim, faded by their position after the trim. -/
def window (stream : List (Frame S)) (leading trailing fade : ℕ) : List (Frame S) :=
  ((stream.take (stream.length - trailing)).drop leading).mapIdx (faded fade)

section Run

variable (leading trailing fade : ℕ) (compensation : Option GaplessTailCompensation)

/-- What pushing comes to: every frame past the leading trim is emitted or held, in order. -/
structure Tracks (pushed out : List (AudioChunk S C)) (t : Trimmer S C) : Prop where
  trims : t.trailingFrames = trailing
  compensates : t.tailCompensation = compensation
  mode : t.mode = .disabled ∧ leading = 0 ∧ trailing = 0 ∧ fade = 0 ∧
        t.tailBuffer.chunks = [] ∨
    t.mode = .fixed (leading - frames pushed) (fadeAfter fade (frames pushed - leading)) ∧
      t.inputFramesSeen = saturating 64 (frames pushed)
  held : Held t.tailBuffer
  audio : spelled audio (out ++ t.tailBuffer.chunks) =
    ((spelled audio pushed).drop leading).mapIdx (faded fade)
  placed : Placed pushed leading (out ++ t.tailBuffer.chunks)
  waits : frames out = 0 ∨ trailing ≤ t.tailBuffer.frames
  front : ∀ c rest, t.tailBuffer.chunks = c :: rest → frames rest < trailing

end Run

theorem mapIdx_take {α β : Type} (f : ℕ → α → β) (l : List α) (n : ℕ) :
    (l.take n).mapIdx f = (l.mapIdx f).take n :=
  List.ext_getElem (by simp) fun j _ _ => by simp

theorem faded_zero (l : List (Frame S)) : l.mapIdx (faded 0) = l := by
  refine List.ext_getElem (by simp) fun j hj _ => ?_
  simp [faded]

section Step

variable {leading trailing fade : ℕ} {compensation : Option GaplessTailCompensation}
  {pushed out : List (AudioChunk S C)} {t : Trimmer S C} {chunk : AudioChunk S C}
  (htracks : Tracks leading trailing fade compensation pushed out t)

include htracks

theorem tracks_frames : frames out + t.tailBuffer.frames = frames pushed - leading := by
  have h := congrArg List.length htracks.audio
  rw [length_frames, List.length_mapIdx, List.length_drop, length_frames, frames_append] at h
  rw [htracks.held.count]
  exact h

theorem hold_tracks (hfade : fade < 2 ^ 16)
    (hroom : frames pushed + chunk.chunkFrames < 2 ^ 64) {e : AudioChunk S C}
    (he : Trimmed chunk (leading - frames pushed) (chunk.chunkFrames - (leading - frames pushed)) e)
    (hpast : leading - frames pushed < chunk.chunkFrames)
    (hseen : (counted t chunk).inputFramesSeen = saturating 64 (frames (pushed ++ [chunk]))) :
    Tracks leading trailing fade compensation (pushed ++ [chunk])
      (out ++ ((counted t chunk).hold 0 (fadeAfter fade (frames pushed - leading)) e).1)
      ((counted t chunk).hold 0 (fadeAfter fade (frames pushed - leading)) e).2 := by
  have hcount := tracks_frames htracks
  have hlength := he.frames
  have hsome : 0 < e.chunkFrames := by omega
  obtain ⟨shaped, happly, hsame, hframes⟩ :=
    applyFadeIn_fadeAfter (frames pushed - leading) hfade hsome
  have hshaped := hsame.chunkFrames
  have hpush : Held (t.tailBuffer.push shaped) := by
    refine held_push htracks.held (hsame.resident he.resident) (hsame.fitting he.fitting)
      (by omega) ?_
    rw [← htracks.held.count]
    omega
  have hpassed : frames (pushed ++ [chunk]) - leading =
      frames pushed - leading + e.chunkFrames := by
    rw [frames_append, frames_singleton]
    omega
  have hsplit : out ++ ((t.tailBuffer.push shaped).release t.trailingFrames).1 ++
      ((t.tailBuffer.push shaped).release t.trailingFrames).2.chunks =
        (out ++ t.tailBuffer.chunks) ++ [shaped] := by
    rw [List.append_assoc, BufferedChunks.release, List.take_append_drop, BufferedChunks.push,
      List.append_assoc]
  have haudio : audio shaped = ((audio chunk).drop (leading - frames pushed)).mapIdx fun j =>
      faded fade (frames pushed - leading + j) := by
    have hcut := he.audio
    rw [List.take_of_length_le (by simp)] at hcut
    rw [← hcut]
    refine List.ext_getElem (by simp [hshaped]) fun j hj _ => ?_
    rw [length_audio, hshaped] at hj
    simp [audio, hframes j hj]
  have hreleased := held_release hpush t.trailingFrames
  simp only [Trimmer.hold, happly]
  refine ⟨htracks.trims, htracks.compensates, .inr ⟨?_, hseen⟩, hreleased, ?_, ?_, ?_, ?_⟩
  · rw [hpassed, frames_append, frames_singleton]
    rw [show leading - (frames pushed + chunk.chunkFrames) = 0 by omega]
  · show spelled audio (out ++ ((t.tailBuffer.push shaped).release t.trailingFrames).1 ++
      ((t.tailBuffer.push shaped).release t.trailingFrames).2.chunks) = _
    rw [hsplit, spelled_append, htracks.audio, spelled_append, List.drop_append,
      List.mapIdx_append, List.length_drop, length_frames]
    simp [spelled, haudio, Nat.add_comm]
  · show Placed _ _ (out ++ ((t.tailBuffer.push shaped).release t.trailingFrames).1 ++
      ((t.tailBuffer.push shaped).release t.trailingFrames).2.chunks)
    rw [hsplit]
    refine placed_snoc htracks.placed (hsame.cutFrom he.cut) ?_
    rw [frames_append]
    have hcounted : frames t.tailBuffer.chunks = t.tailBuffer.frames := htracks.held.count.symm
    omega
  · show frames (out ++ ((t.tailBuffer.push shaped).release t.trailingFrames).1) = 0 ∨
      trailing ≤ ((t.tailBuffer.push shaped).release t.trailingFrames).2.frames
    rw [hreleased.count]
    rcases ripe_holds chunkFrames t.trailingFrames hpush.count with hnone | hheld
    · rcases htracks.waits with hempty | hheld
      · left
        rw [BufferedChunks.release, hnone, List.take_zero, List.append_nil]
        exact hempty
      · right
        rw [BufferedChunks.release, hnone, List.drop_zero, ← hpush.count, BufferedChunks.push,
          saturating_of_lt (by omega)]
        show trailing ≤ t.tailBuffer.frames + shaped.chunkFrames
        omega
    · right
      rw [← htracks.trims]
      exact hheld
  · intro c rest hfront
    rw [← htracks.trims]
    exact ripe_front chunkFrames t.trailingFrames hpush.count hfront

theorem push_tracks (hfade : fade < 2 ^ 16) (hroom : frames pushed + chunk.chunkFrames < 2 ^ 64)
    (hres : Resident chunk) (hfits : Fitting chunk)
    (hcut : frames pushed < leading → leading < frames pushed + chunk.chunkFrames →
      CutReadable chunk (leading - frames pushed)) :
    ∃ ready t', t.push chunk = (.ok ready, t') ∧
      Tracks leading trailing fade compensation (pushed ++ [chunk]) (out ++ ready) t' := by
  obtain ⟨hmode, rfl, rfl, rfl, hempty⟩ | ⟨hmode, hseen⟩ := htracks.mode
  · have haudio := htracks.audio
    have hplaced := htracks.placed
    rw [hempty, List.append_nil, faded_zero, List.drop_zero] at haudio
    rw [hempty, List.append_nil] at hplaced
    have hframes : frames out = frames pushed := by
      rw [← length_frames, haudio, length_frames]
    refine ⟨[chunk], t, push_disabled hfits hmode, htracks.trims, htracks.compensates,
      .inl ⟨hmode, rfl, rfl, rfl, hempty⟩, htracks.held, ?_, ?_, .inr (Nat.zero_le _), ?_⟩
    · rw [hempty, List.append_nil, faded_zero, List.drop_zero, spelled_append, spelled_append,
        haudio]
    · rw [hempty, List.append_nil]
      exact placed_snoc hplaced (cutFrom_whole hres.offset hfits) (by omega)
    · rw [hempty]
      simp
  · have hcounted : (counted t chunk).inputFramesSeen =
        saturating 64 (frames (pushed ++ [chunk])) := by
      rw [counted, hseen, saturating_add, frames_append, frames_singleton]
    by_cases heaten : chunk.chunkFrames ≤ leading - frames pushed
    · refine ⟨[], _, push_eaten hfits hmode heaten, htracks.trims, htracks.compensates,
        .inr ⟨?_, hcounted⟩, htracks.held, ?_, ?_, ?_, htracks.front⟩
      · rw [frames_append, frames_singleton, Nat.sub_add_eq,
          show frames pushed + chunk.chunkFrames - leading = frames pushed - leading by omega]
      · have hnone : (audio chunk).drop (leading - frames pushed) = [] :=
          List.drop_of_length_le (by simpa using heaten)
        have hsame : (spelled audio (pushed ++ [chunk])).drop leading =
            (spelled audio pushed).drop leading := by
          rw [spelled_append, List.drop_append, length_frames]
          simp only [spelled_cons, spelled_nil, List.append_nil, hnone]
        rw [List.append_nil, hsame]
        exact htracks.audio
      · rw [List.append_nil]
        exact placed_push htracks.placed chunk
      · rw [List.append_nil]
        exact htracks.waits
    · rcases Nat.eq_zero_or_pos (leading - frames pushed) with hzero | hpos
      · refine ⟨_, _, push_past hfits hmode hzero (by omega), ?_⟩
        refine hold_tracks htracks hfade hroom ?_ (by omega) hcounted
        rw [hzero, Nat.sub_zero]
        exact trimmed_whole hres hfits
      · obtain ⟨e, he, hpush⟩ := (push_cut hfits hmode hres hpos (by omega)).1
          (hcut (by omega) (by omega))
        exact ⟨_, _, hpush, hold_tracks htracks hfade hroom he (by omega) hcounted⟩

omit htracks in
theorem tracks_start (htrims : t.trailingFrames = trailing)
    (hcompensates : t.tailCompensation = compensation) (htail : t.tailBuffer = .empty)
    (hmode : t.mode = .disabled ∧ leading = 0 ∧ trailing = 0 ∧ fade = 0 ∨
      t.mode = .fixed leading (fadeAfter fade 0) ∧ t.inputFramesSeen = 0) :
    Tracks leading trailing fade compensation [] [] t := by
  have hempty : t.tailBuffer.chunks = [] := by
    rw [htail]
    rfl
  refine ⟨htrims, hcompensates, ?_, htail ▸ held_empty, ?_, ?_, .inl rfl, ?_⟩
  · obtain ⟨hoff, hleading, htrailing, hfade⟩ | ⟨hfixed, hseen⟩ := hmode
    · exact .inl ⟨hoff, hleading, htrailing, hfade, hempty⟩
    · refine .inr ⟨?_, hseen⟩
      rw [hfixed, show frames ([] : List (AudioChunk S C)) = 0 from rfl, Nat.sub_zero, Nat.zero_sub]
  · simp [hempty]
  · rw [hempty]
    exact placed_nil _ _
  · simp [hempty]

omit htracks in
theorem built_tracks (hbuilt : Built leading trailing fade compensation t) :
    Tracks leading trailing fade compensation [] [] t ∧ fade < 2 ^ 16 := by
  cases hbuilt with
  | ofInfo info =>
    refine ⟨tracks_start rfl rfl rfl ?_, by omega⟩
    by_cases henabled : info.leadingFrames > 0 ∨ info.trailingFrames > 0
    · exact .inr ⟨if_pos henabled, rfl⟩
    · exact .inl ⟨if_neg henabled, by omega, by omega, rfl⟩
  | codecPriming leading sampleRate =>
    obtain ⟨hfresh, hpos, hword⟩ := forSampleRate_bounds sampleRate
    by_cases hnone : leading = 0
    · rw [if_pos hnone, Trimmer.codecPriming, if_pos hnone]
      exact ⟨tracks_start rfl rfl rfl (.inl ⟨rfl, hnone, rfl, rfl⟩), by omega⟩
    · rw [if_neg hnone, Trimmer.codecPriming, if_neg hnone]
      refine ⟨tracks_start rfl rfl rfl (.inr ⟨?_, rfl⟩), hword⟩
      rw [fadeAfter, if_pos hpos]
      show GaplessMode.fixed leading (some (FadeInState.forSampleRate sampleRate)) = _
      rw [← hfresh]

theorem pushAll_tracks (hfade : fade < 2 ^ 16) {chunks : List (AudioChunk S C)}
    (hchunks : ∀ c ∈ chunks, Resident c ∧ Fitting c)
    (hroom : frames pushed + frames chunks < 2 ^ 64)
    (hcut : Cuttable (pushed ++ chunks) leading) :
    ∃ ready t', pushAll t chunks = .ok (ready, t') ∧
      Tracks leading trailing fade compensation (pushed ++ chunks) (out ++ ready) t' := by
  induction chunks generalizing pushed out t with
  | nil =>
    refine ⟨[], t, rfl, ?_⟩
    rw [List.append_nil, List.append_nil]
    exact htracks
  | cons c rest ih =>
    have hsum : frames (c :: rest) = c.chunkFrames + frames rest := total_cons _ _ _
    obtain ⟨hres, hfits⟩ := hchunks c List.mem_cons_self
    obtain ⟨ready, t', hpush, hnext⟩ := push_tracks htracks hfade (by omega) hres hfits
      (hcut pushed c rest rfl)
    have hsplit : pushed ++ c :: rest = pushed ++ [c] ++ rest := by simp
    rw [hsplit] at hcut ⊢
    obtain ⟨later, t'', hrest, hlast⟩ := ih hnext
      (fun d hd => hchunks d (List.mem_cons_of_mem _ hd))
      (by rw [frames_append, frames_singleton]; omega) hcut
    refine ⟨ready ++ later, t'', ?_, ?_⟩
    · rw [pushAll, hpush]
      simp only [hrest]
    · rw [← List.append_assoc]
      exact hlast

theorem tail_cut {trimFrames : ℕ} (hcut : Cuttable pushed (frames pushed - trimFrames)) :
    ∃ left, t.tailBuffer.trim trimFrames = (.ok (), left) := by
  refine trim_ok htracks.held fun older c newer hsplit hbelow habove => ?_
  have hplaced := htracks.placed
  have hcount := tracks_frames htracks
  have htail := htracks.held.count
  rw [hsplit, ← List.append_assoc] at hplaced
  rw [hsplit, total_append, total_cons] at htail
  obtain ⟨before, d, after, a, hpushed, hfrom, hplace⟩ := hplaced (out ++ older) c newer rfl
  rw [frames_append] at hplace
  have hwithin := hfrom.within
  have holder : frames older = total chunkFrames older := rfl
  have hposition : frames pushed - trimFrames - frames before =
      a + (c.chunkFrames - (trimFrames - total chunkFrames newer)) := by
    omega
  have hreads := hcut before d after hpushed (by omega) (by omega)
  rw [hposition] at hreads
  intro v hv
  cases hspan : d.sourceSpan with
  | none =>
    rw [(hfrom.unmapped hspan).1] at hv
    cases hv
  | some s =>
    obtain ⟨w, hw, hslice, _⟩ := hfrom.mapped s hspan
    obtain rfl := Option.some.inj (hw.symm.trans hv)
    rw [slice_reads hslice (by omega)]
    exact hreads s hspan

theorem trailing_eq (hmode : t.mode ≠ .disabled) (hroom : frames pushed < 2 ^ 64) :
    t.compensatedTrailingFrames = trailing - compensated compensation (frames pushed) := by
  obtain ⟨hoff, _⟩ | ⟨_, hseen⟩ := htracks.mode
  · exact absurd hoff hmode
  · rw [saturating_of_lt hroom] at hseen
    rw [Trimmer.compensatedTrailingFrames, htracks.compensates, htracks.trims]
    cases compensation with
    | none => rfl
    | some compensation =>
      simp only [compensated, GaplessTailCompensation.deficitFrames, hseen]
      rw [Nat.min_comm]

theorem flush_tracks (hroom : frames pushed < 2 ^ 64)
    (hcut : Cuttable pushed
      (frames pushed - trailingTrim leading trailing compensation (frames pushed))) :
    ∃ flushed t', t.flush = (.ok flushed, t') ∧ Placed pushed leading (out ++ flushed) ∧
      spelled audio (out ++ flushed) = window (spelled audio pushed) (min leading (frames pushed))
        (trailingTrim leading trailing compensation (frames pushed)) fade := by
  have hcount := tracks_frames htracks
  by_cases hoff : t.mode = .disabled
  · obtain ⟨_, rfl, rfl, rfl, hempty⟩ | ⟨hfixed, _⟩ := htracks.mode
    · refine ⟨[], t, by rw [Trimmer.flush, hoff], ?_, ?_⟩
      · have hplaced := htracks.placed
        rwa [hempty] at hplaced
      · have haudio := htracks.audio
        rw [hempty] at haudio
        rw [haudio, window, trailingTrim, Nat.zero_sub, Nat.min_zero, Nat.zero_min, Nat.sub_zero,
          List.take_length]
    · rw [hoff] at hfixed
      cases hfixed
  · have htrim := trailing_eq htracks hoff hroom
    obtain ⟨left, hleft⟩ := tail_cut htracks hcut
    have hsame : t.tailBuffer.trim t.compensatedTrailingFrames =
        t.tailBuffer.trim (trailingTrim leading trailing compensation (frames pushed)) := by
      have hmin : min t.compensatedTrailingFrames t.tailBuffer.frames =
          min (trailingTrim leading trailing compensation (frames pushed)) t.tailBuffer.frames := by
        rw [htrim, trailingTrim]
        omega
      rw [BufferedChunks.trim, BufferedChunks.trim, hmin]
    obtain ⟨hkept, _, _⟩ := trim_audio htracks.held hleft
    refine ⟨left.chunks, { t with tailBuffer := .empty }, ?_,
      placed_trim htracks.held hleft htracks.placed, ?_⟩
    · cases hmode : t.mode with
      | disabled => exact absurd hmode hoff
      | fixed leadingRemaining fadeIn => rw [Trimmer.flush, hmode, hsame, hleft]
    · have hlength : frames out + (t.tailBuffer.frames -
          trailingTrim leading trailing compensation (frames pushed)) = frames pushed -
            trailingTrim leading trailing compensation (frames pushed) -
            min leading (frames pushed) := by
        have hwaits := htracks.waits
        rw [trailingTrim]
        omega
      have haudio := htracks.audio
      rw [spelled_append] at haudio
      have hdrop : (spelled audio pushed).drop (min leading (frames pushed)) =
          (spelled audio pushed).drop leading := by
        rcases Nat.le_total leading (frames pushed) with hle | hle
        · rw [min_eq_left hle]
        · rw [min_eq_right hle, List.drop_of_length_le (length_frames pushed).le,
            List.drop_of_length_le (by rw [length_frames]; exact hle)]
      rw [spelled_append, hkept rfl, window, length_frames, List.drop_take, ← hlength, hdrop,
        mapIdx_take, ← haudio, ← length_frames out, List.take_length_add_append]

end Step

/-- Before the end: nothing of the last `trailing` frames has left, and no held chunk could have. -/
structure HoldsBack (leading trailing : ℕ) (pushed out : List (AudioChunk S C)) (t : Trimmer S C) :
    Prop where
  kept : frames out ≤ frames pushed - leading - trailing
  ripe : ∀ c rest, t.tailBuffer.chunks = c :: rest → frames rest < trailing

theorem tracks_holdsBack {leading trailing fade : ℕ}
    {compensation : Option GaplessTailCompensation} {pushed out : List (AudioChunk S C)}
    {t : Trimmer S C} (h : Tracks leading trailing fade compensation pushed out t) :
    HoldsBack leading trailing pushed out t := by
  have hcount := tracks_frames h
  refine ⟨?_, h.front⟩
  rcases h.waits with hnone | hheld
  · omega
  · omega

/-- However a stream is chunked, the trimmers of both sources emit the frames between the trims, in
order, faded by position, each chunk with the data of its own first frame, provided that mapped
chunks fit their spans and have a source frame where a trim cuts them; and before the end they hold
back what they must and no more. -/
theorem gapless_window (leading trailing fade : ℕ) (compensation : Option GaplessTailCompensation)
    (t : Trimmer S C) (chunks : List (AudioChunk S C))
    (hbuilt : Built leading trailing fade compensation t)
    (hchunks : ∀ c ∈ chunks, Resident c ∧ Fitting c) (hroom : frames chunks < 2 ^ 64)
    (hlead : Cuttable chunks leading)
    (htrail : Cuttable chunks
      (frames chunks - trailingTrim leading trailing compensation (frames chunks))) :
    (∃ out t' flushed t'', pushAll t chunks = .ok (out, t') ∧ t'.flush = (.ok flushed, t'') ∧
      spelled audio (out ++ flushed) = window (spelled audio chunks) (min leading (frames chunks))
        (trailingTrim leading trailing compensation (frames chunks)) fade ∧
      Placed chunks leading (out ++ flushed)) ∧
    ∀ pushed later, chunks = pushed ++ later → ∃ out t', pushAll t pushed = .ok (out, t') ∧
      HoldsBack leading trailing pushed out t' := by
  obtain ⟨hstart, hfade⟩ := built_tracks hbuilt
  constructor
  · obtain ⟨out, t', hpush, htracks⟩ := pushAll_tracks hstart hfade hchunks
      (by simpa [frames] using hroom) hlead
    obtain ⟨flushed, t'', hflush, hplaced, haudio⟩ := flush_tracks htracks hroom htrail
    exact ⟨out, t', flushed, t'', hpush, hflush, haudio, hplaced⟩
  · rintro pushed later rfl
    rw [frames_append] at hroom
    obtain ⟨out, t', hpush, htracks⟩ := pushAll_tracks hstart hfade
      (fun c hc => hchunks c (List.mem_append_left _ hc)) (by simp [frames] at *; omega)
      (cuttable_front hlead)
    exact ⟨out, t', hpush, tracks_holdsBack htracks⟩

def silence (count offset : ℕ) : AudioChunk Unit SteadyRate :=
  ⟨⟨sampleRate, 1⟩, 0, 0, none, count, offset, List.replicate count ()⟩

theorem silence_ok {count offset : ℕ} (hcount : count < 2 ^ 32) (hoffset : offset < 2 ^ 64) :
    Resident (silence count offset) ∧ Fitting (silence count offset) := by
  refine ⟨⟨?_, hcount, hoffset, fun s hs => ?_⟩, fun s hs => ?_⟩
  · rw [silence, List.length_replicate]
    omega
  · cases hs
  · cases hs

theorem silence_cuttable (position : ℕ) :
    Cuttable [silence 2 0, silence 1 2] position := by
  intro before c after hsplit _ _ s hs
  have hmem : c ∈ [silence 2 0, silence 1 2] := by simp [hsplit]
  simp only [List.mem_cons, List.not_mem_nil, or_false] at hmem
  rcases hmem with rfl | rfl
  · cases hs
  · cases hs

/-- Three silent frames in two chunks, the first and the last trimmed. -/
theorem gapless_window_silence :
    ∃ out t' flushed t'', pushAll ((Trimmer.ofInfo ⟨1, 1⟩).withTailCompensation none)
        [silence 2 0, silence 1 2] = .ok (out, t') ∧ t'.flush = (.ok flushed, t'') ∧
      spelled audio (out ++ flushed) = window (spelled audio [silence 2 0, silence 1 2])
        (min 1 3) (trailingTrim 1 1 none 3) 0 ∧
      Placed [silence 2 0, silence 1 2] 1 (out ++ flushed) :=
  (gapless_window 1 1 0 none _ [silence 2 0, silence 1 2] (.ofInfo ⟨1, 1⟩ none)
    (by simp [silence_ok]) (by decide) (silence_cuttable 1) (silence_cuttable _)).1

/-- A chunk that the leading trim ends in, but cannot cut, is refused and its frames are not
emitted. -/
theorem uncut_chunk_refused :
    ¬ ∀ (leading trailing fade : ℕ) (compensation : Option GaplessTailCompensation)
      (t : Trimmer Unit SteadyRate) (chunks : List (AudioChunk Unit SteadyRate)),
      Built leading trailing fade compensation t → (∀ c ∈ chunks, Resident c ∧ Fitting c) →
      frames chunks < 2 ^ 64 → ∃ out t', pushAll t chunks = .ok (out, t') := by
  intro h
  obtain ⟨out, t', hpush⟩ := h 1 0 0 none _ [crossingChunk] (.ofInfo ⟨1, 0⟩ none)
    (by simp [crossingChunk_resident, crossingChunk_fitting]) (by decide)
  obtain ⟨error, hrefused⟩ := (push_cut crossingChunk_fitting
    (t := (Trimmer.ofInfo ⟨1, 0⟩).withTailCompensation none) rfl crossingChunk_resident Nat.one_pos
    (by decide)).2 fun hreads => crossing_unread (hreads _ rfl)
  rw [pushAll, hrefused] at hpush
  cases hpush

end GaplessWindow

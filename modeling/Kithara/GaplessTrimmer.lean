import Kithara.GaplessFade
import Kithara.HeldBlocks

/-! The trimmer: leading frames dropped, a fade where the boundary is a codec's guess, the tail held
back until the end. A refused operation still returns the state it leaves. -/
namespace GaplessTrimmer

open SpanMapping GaplessChunks GaplessChunks.AudioChunk GaplessFade HeldBlocks SeekGeometry

variable {S C : Type}

structure GaplessInfo where
  leadingFrames : ℕ
  trailingFrames : ℕ

structure GaplessTailCompensation where
  idealPreTrimFrames : ℕ

def GaplessTailCompensation.deficitFrames (t : GaplessTailCompensation) (actual : ℕ) : ℕ :=
  t.idealPreTrimFrames - actual

structure BufferedChunks (S C : Type) where
  chunks : List (AudioChunk S C)
  frames : ℕ

namespace BufferedChunks

def empty : BufferedChunks S C := ⟨[], 0⟩

def push (b : BufferedChunks S C) (chunk : AudioChunk S C) : BufferedChunks S C :=
  ⟨b.chunks ++ [chunk], saturating 64 (b.frames + chunk.chunkFrames)⟩

def release (b : BufferedChunks S C) (trailingFrames : ℕ) :
    List (AudioChunk S C) × BufferedChunks S C :=
  let releaseCount := ripe chunkFrames trailingFrames b.frames b.chunks
  (b.chunks.take releaseCount,
    ⟨b.chunks.drop releaseCount, b.frames - total chunkFrames (b.chunks.take releaseCount)⟩)

/-- The loop over the newest chunks: whole ones while they fit, then a cut. -/
def trimLoop [ExponentialApproach C] : List (AudioChunk S C) → ℕ → ℕ →
    Except DecodeError Unit × BufferedChunks S C
  | [], _, frames => (.ok (), ⟨[], frames⟩)
  | back :: older, dropFrames, frames =>
    if dropFrames = 0 then (.ok (), ⟨back :: older, frames⟩)
    else if back.chunkFrames ≤ dropFrames then
      trimLoop older (dropFrames - back.chunkFrames) (frames - back.chunkFrames)
    else
      match trimChunkEnd back dropFrames with
      | .ok kept => (.ok (), ⟨kept :: older, frames - dropFrames⟩)
      | .error e => (.error e, ⟨back :: older, frames⟩)

def trim [ExponentialApproach C] (b : BufferedChunks S C) (trimFrames : ℕ) :
    Except DecodeError Unit × BufferedChunks S C :=
  let (result, left) := trimLoop b.chunks.reverse (min trimFrames b.frames) b.frames
  (result, ⟨left.chunks.reverse, left.frames⟩)

end BufferedChunks

inductive GaplessMode where
  | disabled
  | fixed (leadingRemaining : ℕ) (fadeIn : Option FadeInState)

structure Trimmer (S C : Type) where
  mode : GaplessMode
  tailCompensation : Option GaplessTailCompensation
  tailBuffer : BufferedChunks S C
  inputFramesSeen : ℕ
  trailingFrames : ℕ

namespace Trimmer

def disabled : Trimmer S C where
  mode := .disabled
  tailCompensation := none
  tailBuffer := .empty
  inputFramesSeen := 0
  trailingFrames := 0

def ofInfo (info : GaplessInfo) : Trimmer S C where
  mode := if info.leadingFrames > 0 ∨ info.trailingFrames > 0 then .fixed info.leadingFrames none
    else .disabled
  tailCompensation := none
  tailBuffer := .empty
  inputFramesSeen := 0
  trailingFrames := info.trailingFrames

def codecPriming (leadingFrames sampleRate : ℕ) : Trimmer S C :=
  if leadingFrames = 0 then disabled
  else
    { mode := .fixed leadingFrames (some (.forSampleRate sampleRate))
      trailingFrames := 0
      tailCompensation := none
      inputFramesSeen := 0
      tailBuffer := .empty }

def withTailCompensation (t : Trimmer S C) (compensation : Option GaplessTailCompensation) :
    Trimmer S C :=
  { t with tailCompensation := compensation }

/-- A deficit beyond one frame is bounded; builds with assertions stop there instead. -/
def compensatedTrailingFrames (t : Trimmer S C) : ℕ :=
  match t.tailCompensation with
  | none => t.trailingFrames
  | some compensation => t.trailingFrames - min (compensation.deficitFrames t.inputFramesSeen) 1

def flush [ExponentialApproach C] (t : Trimmer S C) :
    Except DecodeError (List (AudioChunk S C)) × Trimmer S C :=
  match t.mode with
  | .disabled => (.ok [], t)
  | .fixed _ _ =>
    match t.tailBuffer.trim t.compensatedTrailingFrames with
    | (.error e, left) => (.error e, { t with tailBuffer := left })
    | (.ok (), left) => (.ok left.chunks, { t with tailBuffer := .empty })

def notifySeek (t : Trimmer S C) : Trimmer S C :=
  { t with
    mode :=
      match t.mode with
      | .disabled => .disabled
      | .fixed _ _ => .fixed 0 none
    tailCompensation := none
    inputFramesSeen := 0
    tailBuffer := .empty }

/-- What survives the leading trim passes the fade into the held tail. -/
def hold [RaisedCosine S] (t : Trimmer S C) (leadingRemaining : ℕ) (fadeIn : Option FadeInState)
    (chunk : AudioChunk S C) : List (AudioChunk S C) × Trimmer S C :=
  let (fadeIn, chunk) := applyFadeIn fadeIn chunk
  let (ready, held) := (t.tailBuffer.push chunk).release t.trailingFrames
  (ready, { t with mode := .fixed leadingRemaining fadeIn, tailBuffer := held })

def push [ExponentialApproach C] [RaisedCosine S] (t : Trimmer S C) (chunk : AudioChunk S C) :
    Except DecodeError (List (AudioChunk S C)) × Trimmer S C :=
  match validateGeometry chunk with
  | .error e => (.error e, t)
  | .ok () =>
    match t.mode with
    | .disabled => (.ok [chunk], t)
    | .fixed leadingRemaining fadeIn =>
      let t := { t with inputFramesSeen := saturating 64 (t.inputFramesSeen + chunk.chunkFrames) }
      match trimLeading chunk leadingRemaining with
      | (.error e, left) => (.error e, { t with mode := .fixed left fadeIn })
      | (.ok none, left) => (.ok [], { t with mode := .fixed left fadeIn })
      | (.ok (some chunk), left) =>
        if chunk.chunkFrames = 0 then (.ok [], { t with mode := .fixed left fadeIn })
        else
          let (ready, t) := t.hold left fadeIn chunk
          (.ok ready, t)

end Trimmer

open Trimmer

/-- The held chunks are nonempty, fit their spans and are counted right. -/
structure Held (b : BufferedChunks S C) [ExponentialApproach C] : Prop where
  resident : ∀ c ∈ b.chunks, Resident c
  fitting : ∀ c ∈ b.chunks, Fitting c
  nonempty : ∀ c ∈ b.chunks, 0 < c.chunkFrames
  count : b.frames = total chunkFrames b.chunks

/-- The chunks held and the one pushed share an address space. -/
def Room (t : Trimmer S C) (chunk : AudioChunk S C) : Prop :=
  total chunkFrames t.tailBuffer.chunks + chunk.chunkFrames < 2 ^ 64

section Steps

variable [ExponentialApproach C]

theorem held_empty : Held (BufferedChunks.empty : BufferedChunks S C) :=
  ⟨by simp [BufferedChunks.empty], by simp [BufferedChunks.empty], by simp [BufferedChunks.empty],
    rfl⟩

theorem held_push {b : BufferedChunks S C} (hb : Held b) {chunk : AudioChunk S C}
    (hres : Resident chunk) (hfits : Fitting chunk) (hsome : 0 < chunk.chunkFrames)
    (hroom : total chunkFrames b.chunks + chunk.chunkFrames < 2 ^ 64) : Held (b.push chunk) := by
  have hmem {P : AudioChunk S C → Prop} (hold : ∀ c ∈ b.chunks, P c) (hnew : P chunk) :
      ∀ c ∈ (b.push chunk).chunks, P c := by
    intro c hc
    rcases List.mem_append.mp hc with h | h
    · exact hold c h
    · rw [List.mem_singleton.mp h]
      exact hnew
  refine ⟨hmem hb.resident hres, hmem hb.fitting hfits, hmem hb.nonempty hsome, ?_⟩
  rw [BufferedChunks.push, hb.count, saturating_of_lt hroom]
  simp

theorem held_release {b : BufferedChunks S C} (hb : Held b) (trailing : ℕ) :
    Held (b.release trailing).2 := by
  have hmem : ∀ c ∈ (b.release trailing).2.chunks, c ∈ b.chunks :=
    fun c hc => List.mem_of_mem_drop hc
  refine ⟨fun c hc => hb.resident c (hmem c hc), fun c hc => hb.fitting c (hmem c hc),
    fun c hc => hb.nonempty c (hmem c hc), ?_⟩
  have hsplit := congrArg (total chunkFrames)
    (List.take_append_drop (ripe chunkFrames trailing b.frames b.chunks) b.chunks)
  rw [total_append] at hsplit
  show b.frames - total chunkFrames (b.chunks.take _) = total chunkFrames (b.chunks.drop _)
  rw [hb.count] at hsplit ⊢
  omega

theorem trimLoop_eq {chunks : List (AudioChunk S C)} (hres : ∀ c ∈ chunks, Resident c)
    (hfits : ∀ c ∈ chunks, Fitting c) (dropped : ℕ) :
    BufferedChunks.trimLoop chunks dropped (total chunkFrames chunks) =
      ((dropNewest chunkFrames trimChunkEnd chunks dropped).1,
        ⟨(dropNewest chunkFrames trimChunkEnd chunks dropped).2,
          total chunkFrames (dropNewest chunkFrames trimChunkEnd chunks dropped).2⟩) := by
  induction chunks generalizing dropped with
  | nil => rfl
  | cons back older ih =>
    simp only [BufferedChunks.trimLoop, dropNewest]
    split
    · rfl
    · next hsome =>
      split
      · rw [total_cons, Nat.add_sub_cancel_left]
        exact ih (fun c hc => hres c (List.mem_cons_of_mem _ hc))
          (fun c hc => hfits c (List.mem_cons_of_mem _ hc)) _
      · next hpart =>
        cases hcut : trimChunkEnd back dropped with
        | error e => rfl
        | ok kept =>
          have hkept := trimChunkEnd_trimmed (hres back List.mem_cons_self)
            (hfits back List.mem_cons_self) (Nat.pos_of_ne_zero hsome) (by omega) hcut
          have hcount : back.chunkFrames + total chunkFrames older - dropped =
              kept.chunkFrames + total chunkFrames older := by
            rw [hkept.frames]
            omega
          simp only [total_cons, hcount]

section Trim

variable {b left : BufferedChunks S C} {trimFrames : ℕ} {result : Except DecodeError Unit}
  (hb : Held b) (htrim : b.trim trimFrames = (result, left))
include hb htrim

theorem trim_drops : dropNewest chunkFrames trimChunkEnd b.chunks.reverse
      (min trimFrames b.frames) = (result, left.chunks.reverse) ∧
    left.frames = total chunkFrames left.chunks := by
  have hres : ∀ c ∈ b.chunks.reverse, Resident c := by simpa using hb.resident
  have hfits : ∀ c ∈ b.chunks.reverse, Fitting c := by simpa using hb.fitting
  have hloop := trimLoop_eq hres hfits (min trimFrames b.frames)
  rw [total_reverse, ← hb.count] at hloop
  rw [BufferedChunks.trim, hloop] at htrim
  obtain ⟨rfl, rfl⟩ := Prod.mk.inj htrim
  exact ⟨by simp, by simp⟩

theorem trim_left {P : AudioChunk S C → Prop} (hP : ∀ c ∈ b.chunks, P c)
    (hcut : ∀ c ∈ b.chunks, ∀ kept, 0 < kept.chunkFrames →
      Trimmed c 0 kept.chunkFrames kept → P kept) : ∀ c ∈ left.chunks, P c := by
  have hmem := dropNewest_mem (by simpa using hP) (fun c hc k kept hpos hk hkept => ?_)
    (trim_drops hb htrim).1
  · simpa using hmem
  · rw [List.mem_reverse] at hc
    have htrimmed := trimChunkEnd_trimmed (hb.resident c hc) (hb.fitting c hc) hpos hk hkept
    have hkept := htrimmed.frames
    rw [← hkept] at htrimmed
    exact hcut c hc kept (by omega) htrimmed

theorem trim_held : Held left where
  resident := trim_left hb htrim hb.resident fun _ _ _ _ h => h.resident
  fitting := trim_left hb htrim hb.fitting fun _ _ _ _ h => h.fitting
  nonempty := trim_left hb htrim hb.nonempty fun _ _ _ hpos _ => hpos
  count := (trim_drops hb htrim).2

/-- A trim keeps all but the trimmed frames; a refused one has lost none of them. -/
theorem trim_audio :
    (result = .ok () → spelled audio left.chunks =
      (spelled audio b.chunks).take (b.frames - trimFrames)) ∧
    (spelled audio b.chunks).take (b.frames - trimFrames) <+: spelled audio left.chunks ∧
    spelled audio left.chunks <+: spelled audio b.chunks := by
  have hcuts : ∀ c ∈ b.chunks.reverse, CutsEnd audio chunkFrames trimChunkEnd c := by
    intro c hc dropped kept hpos hlt hkept
    rw [List.mem_reverse] at hc
    have htrimmed := trimChunkEnd_trimmed (hb.resident c hc) (hb.fitting c hc) hpos hlt hkept
    have haudio := htrimmed.audio
    rwa [List.drop_zero] at haudio
  have hspelled := dropNewest_spelled length_audio hcuts (trim_drops hb htrim).1
  rw [total_reverse, ← hb.count, List.reverse_reverse, List.reverse_reverse,
    show b.frames - min trimFrames b.frames = b.frames - trimFrames by omega] at hspelled
  exact hspelled

theorem trim_split : ∃ gone, b.chunks = left.chunks ++ gone ∨
    ∃ older c kept, b.chunks = older ++ c :: gone ∧ left.chunks = older ++ [kept] ∧
      CutFrom c 0 kept := by
  obtain ⟨gone, hwhole | ⟨c, older, kept, k, hsplit, hleft, hpos, hk, hkept⟩⟩ :=
    dropNewest_split (trim_drops hb htrim).1
  · refine ⟨gone.reverse, .inl ?_⟩
    have h := congrArg List.reverse hwhole
    rwa [List.reverse_reverse, List.reverse_append, List.reverse_reverse] at h
  · have hchunks := congrArg List.reverse hsplit
    have hrest := congrArg List.reverse hleft
    rw [List.reverse_reverse, List.reverse_append, List.reverse_cons, List.append_assoc] at hchunks
    rw [List.reverse_reverse, List.reverse_cons] at hrest
    have hmem : c ∈ b.chunks := by simp [hchunks]
    exact ⟨gone.reverse, .inr ⟨older.reverse, c, kept, hchunks, hrest,
      (trimChunkEnd_trimmed (hb.resident c hmem) (hb.fitting c hmem) hpos hk hkept).cut⟩⟩

end Trim

/-- A trim is refused only by a chunk that has no source frame where it ends. -/
theorem trim_ok {b : BufferedChunks S C} (hb : Held b) {trimFrames : ℕ}
    (hcut : ∀ older c newer, b.chunks = older ++ c :: newer →
      total chunkFrames newer < trimFrames → trimFrames < total chunkFrames newer + c.chunkFrames →
      CutReadable c (c.chunkFrames - (trimFrames - total chunkFrames newer))) :
    ∃ left, b.trim trimFrames = (.ok (), left) := by
  have hrun : ∃ left, dropNewest chunkFrames trimChunkEnd b.chunks.reverse
      (min trimFrames b.frames) = (.ok (), left) := by
    refine dropNewest_ok fun newer c older hsplit hbelow habove => ?_
    have hchunks := congrArg List.reverse hsplit
    rw [List.reverse_reverse, List.reverse_append, List.reverse_cons, List.append_assoc,
      List.singleton_append] at hchunks
    have hmem : c ∈ b.chunks := by simp [hchunks]
    have hcount := hb.count
    rw [hchunks, total_append, total_cons, total_reverse, total_reverse] at hcount
    have hmin : min trimFrames b.frames = trimFrames := by omega
    have hreads := hcut older.reverse c newer.reverse hchunks
    rw [hmin] at hbelow habove ⊢
    rw [total_reverse] at hreads
    exact (trimChunkEnd_isOk (hb.resident c hmem) (hb.fitting c hmem) _).mpr (hreads hbelow habove)
  obtain ⟨chunks, hok⟩ := hrun
  cases htrim : b.trim trimFrames with
  | mk result left =>
    rw [(trim_drops hb htrim).1] at hok
    rw [(Prod.mk.inj hok).1]
    exact ⟨left, rfl⟩

variable [RaisedCosine S] {t : Trimmer S C} {chunk : AudioChunk S C}

def counted (t : Trimmer S C) (chunk : AudioChunk S C) : Trimmer S C :=
  { t with inputFramesSeen := saturating 64 (t.inputFramesSeen + chunk.chunkFrames) }

theorem push_unfit (h : ¬ Fitting chunk) : ∃ e, t.push chunk = (.error e, t) := by
  cases hcheck : validateGeometry chunk with
  | error e => exact ⟨e, by rw [Trimmer.push, hcheck]⟩
  | ok u => exact absurd (validateGeometry_ok.mp hcheck) h

theorem push_disabled (hfits : Fitting chunk) (hmode : t.mode = .disabled) :
    t.push chunk = (.ok [chunk], t) := by
  rw [Trimmer.push, validateGeometry_ok.mpr hfits, hmode]

section Fixed

variable {leading : ℕ} {fade : Option FadeInState} (hfits : Fitting chunk)
  (hmode : t.mode = .fixed leading fade)
include hfits hmode

theorem push_eaten (h : chunk.chunkFrames ≤ leading) :
    t.push chunk =
      (.ok [], { counted t chunk with mode := .fixed (leading - chunk.chunkFrames) fade }) := by
  rw [Trimmer.push, validateGeometry_ok.mpr hfits, hmode]
  by_cases hleading : 0 < leading
  · simp only [trimLeading, if_pos hleading, if_pos h]
    rfl
  · have hnone : chunk.chunkFrames = 0 := by omega
    have htrim : trimLeading chunk leading = (.ok (some chunk), leading) := if_neg hleading
    simp only [htrim, if_pos hnone]
    rw [show leading - chunk.chunkFrames = leading by omega]
    rfl

theorem push_past (hleading : leading = 0) (hsome : 0 < chunk.chunkFrames) :
    t.push chunk = (.ok ((counted t chunk).hold 0 fade chunk).1,
      ((counted t chunk).hold 0 fade chunk).2) := by
  rw [Trimmer.push, validateGeometry_ok.mpr hfits, hmode]
  simp only [trimLeading, hleading, if_neg (lt_irrefl 0), if_neg (Nat.ne_of_gt hsome)]
  rfl

/-- A chunk the leading trim ends in: what its cut leaves goes on, or the cut is refused with the
count already spent. -/
theorem push_cut (hres : Resident chunk) (hleading : 0 < leading)
    (hwithin : leading < chunk.chunkFrames) :
    (CutReadable chunk leading → ∃ e, Trimmed chunk leading (chunk.chunkFrames - leading) e ∧
      t.push chunk = (.ok ((counted t chunk).hold 0 fade e).1,
        ((counted t chunk).hold 0 fade e).2)) ∧
    (¬ CutReadable chunk leading → ∃ error,
      t.push chunk = (.error error, { counted t chunk with mode := .fixed 0 fade })) := by
  have hiff := trimChunkStart_isOk hres hfits hwithin
  rw [Trimmer.push, validateGeometry_ok.mpr hfits, hmode]
  simp only [trimLeading, if_pos hleading, if_neg (Nat.not_le.mpr hwithin)]
  constructor
  · intro hcut
    obtain ⟨e, he⟩ := hiff.mpr hcut
    have htrimmed := trimChunkStart_trimmed hres hfits hleading hwithin he
    have hsome : ¬ e.chunkFrames = 0 := by
      rw [htrimmed.frames]
      omega
    refine ⟨e, htrimmed, ?_⟩
    simp only [he, Except.map, if_neg hsome]
    rfl
  · intro hcut
    cases he : trimChunkStart chunk leading with
    | ok e => exact absurd (hiff.mp ⟨e, he⟩) hcut
    | error error =>
      refine ⟨error, ?_⟩
      simp only [Except.map]
      rfl

end Fixed

end Steps

end GaplessTrimmer

import Kithara.AnalysisBlobs
import Kithara.DoubleRounding
import Mathlib.Algebra.GroupWithZero.Nat

/-! The audio a beat pass holds at the detector's rate: one run for each stretch of source frames
it has taken and not read yet, with the resampler that is still under way in it. The resampler is
a parameter, its state any type. -/
namespace BeatRuns

open RangeRuns ByteReaders AnalysisBlobs DoubleRounding

/-- The bits of an `f32`. -/
abbrev Sample := UInt32

structure Resampler (S : Type) where
  new : ℕ → ℕ → S
  push : S → List Sample → S × List Sample
  finish : S → List Sample

structure Run (S : Type) where
  stream : Option S
  mono : List Sample
  stop : ℕ
  start : ℕ

structure Config where
  sourceRate : ℕ
  targetRate : ℕ
  budget : ℕ
  maxRuns : ℕ
  deriving DecidableEq, Repr

structure Runs (S : Type) where
  config : Config
  taken : Coverage
  runs : List (Run S)

inductive Intake where
  | full
  | continuing
  | anywhere
  deriving DecidableEq, Repr

inductive Opens where
  | run
  | extends
  deriving DecidableEq, Repr

def ratio (c : Config) : ℚ := nearest (c.targetRate / c.sourceRate)

/-- The product of two doubles, rounded to the nearest natural, halves upward. -/
def scale (c : Config) (frames : ℕ) : ℕ :=
  min ⌊nearest (nearest frames * ratio c) + 1 / 2⌋₊ (2 ^ 64 - 1)

def pad (out : List Sample) (expected : ℕ) : List Sample :=
  out.take expected ++ List.replicate (expected - out.length) 0

def slice (mono : List Sample) (offset first last : ℕ) : Option (List Sample) :=
  let start := first - offset
  let stop := last - offset
  if start ≤ stop ∧ stop ≤ mono.length then some ((mono.drop start).take (stop - start)) else none

/-- Where a sorted list stops answering `p`. -/
def partitionPoint {α : Type} (p : α → Bool) (xs : List α) : ℕ := (xs.takeWhile p).length

/-- The first stretch from `first` to `last` outside the runs. -/
def missing (last : ℕ) : ℕ → List (ℕ × ℕ) → Option (ℕ × ℕ)
  | first, [] => if first < last then some (first, last) else none
  | first, run :: rest =>
    if run.2 ≤ first then missing last first rest
    else if first < run.1 then
      if first < min run.1 last then some (first, min run.1 last) else none
    else missing last run.2 rest

theorem missing_spec {runs : List (ℕ × ℕ)} {last first a b : ℕ}
    (h : missing last first runs = some (a, b)) : first ≤ a ∧ a < b ∧ b ≤ last := by
  induction runs generalizing first with
  | nil =>
    rw [missing] at h
    split at h
    · cases h
      omega
    · cases h
  | cons run rest ih =>
    rw [missing] at h
    split at h
    · exact ih h
    · split at h
      · split at h
        · cases h
          omega
        · cases h
      · have := ih h
        omega

namespace Runs

variable {S : Type} (R : Resampler S)

def new (c : Config) : Runs S where
  config :=
    { c with
      sourceRate := max c.sourceRate 1
      targetRate := max c.targetRate 1
      maxRuns := max c.maxRuns 1 }
  taken := Coverage.empty
  runs := []

def detectorFrames (s : Runs S) (frames : ℕ) : ℕ := scale s.config frames

def held (s : Runs S) : ℕ := (s.runs.map fun run => run.mono.length).sum

def intake (s : Runs S) : Intake :=
  if s.config.budget ≤ s.held then .full
  else if s.config.maxRuns ≤ s.runs.length then .continuing
  else .anywhere

def meets (s : Runs S) (start stop : ℕ) : Bool :=
  s.runs.any fun run => decide (run.start ≤ stop) && decide (start ≤ run.stop)

def reaches (s : Runs S) (stop : ℕ) : Bool := s.taken.set.runs.any fun region => stop ≤ region.1

def admits (s : Runs S) (start stop : ℕ) (opens : Opens) : Bool :=
  match s.intake, opens with
  | .full, _ => false
  | .continuing, .run =>
    s.meets start stop || (decide (s.runs.length ≤ s.config.maxRuns) && s.reaches stop)
  | .anywhere, .run => true
  | .continuing, .extends => s.meets start stop
  | .anywhere, .extends => s.meets start stop

def resample (s : Runs S) (out mono : List Sample) (stream : Option S) :
    List Sample × Option S :=
  if s.config.sourceRate = s.config.targetRate then (out ++ mono, stream)
  else
    let inner := stream.getD (R.new s.config.sourceRate s.config.targetRate)
    let (inner, samples) := R.push inner mono
    (out ++ samples, some inner)

def «open» (s : Runs S) (mono : List Sample) (start stop : ℕ) : Run S :=
  if s.config.sourceRate = s.config.targetRate then ⟨none, mono, stop, start⟩
  else
    let (inner, samples) := R.push (R.new s.config.sourceRate s.config.targetRate) mono
    ⟨some inner, samples, stop, start⟩

def finishInto (out : List Sample) (stream : Option S) : List Sample :=
  out ++ (stream.map R.finish).getD []

/-- What a merge has put together so far. -/
structure Merging (S : Type) where
  out : List Sample
  cursor : ℕ
  stream : Option S

/-- Reads the frames between the cursor and the run from the block, if there are any. -/
def bridge (s : Runs S) (mono : List Sample) (offset stop : ℕ) (m : Merging S) :
    Option (Merging S) :=
  if m.cursor < stop then
    (slice mono offset m.cursor stop).map fun piece =>
      let (out, stream) := s.resample R m.out piece m.stream
      ⟨out, stop, stream⟩
  else some m

def mergeRun (s : Runs S) (base : ℕ) (m : Merging S) (run : Run S) : Merging S :=
  let out := pad (finishInto R m.out m.stream) (s.detectorFrames (m.cursor - base))
  if run.stop ≤ m.cursor then ⟨out, m.cursor, none⟩
  else
    let out := out ++ run.mono.drop (s.detectorFrames (m.cursor - run.start))
    match run.stream with
    | some stream => ⟨out, run.stop, some stream⟩
    | none => ⟨pad out (s.detectorFrames (run.stop - base)), run.stop, none⟩

def mergeRuns (s : Runs S) (mono : List Sample) (offset base : ℕ) :
    List (Run S) → Merging S → Option (Merging S)
  | [], m => some m
  | run :: rest, m =>
    match s.bridge R mono offset run.start m with
    | none => none
    | some m => mergeRuns s mono offset base rest (s.mergeRun R base m run)

def merge (s : Runs S) (absorbed : List (Run S)) (mono : List Sample) (start stop : ℕ) :
    Option (Run S) :=
  let base := (absorbed.head?.map fun run => min run.start start).getD start
  match s.mergeRuns R mono start base absorbed ⟨[], base, none⟩ with
  | none => none
  | some m =>
    match s.bridge R mono start stop m with
    | none => none
    | some m => some ⟨m.stream, m.out, m.cursor, base⟩

/-- `fails` says that a buffer was refused or the resampler failed: the runs that were to be
merged are gone by then. -/
def absorb (s : Runs S) (mono : List Sample) (start stop : ℕ) (fails : Bool) : Runs S × Bool :=
  let first := partitionPoint (fun run => decide (run.stop < start)) s.runs
  let last := partitionPoint (fun run => decide (run.start ≤ stop)) s.runs
  if first = last then
    if fails then (s, false)
    else
      let run := s.open R mono start stop
      ({ s with runs := s.runs.take first ++ run :: s.runs.drop first }, true)
  else
    let before := s.runs.take first
    let absorbed := (s.runs.drop first).take (last - first)
    let after := s.runs.drop last
    if fails then ({ s with runs := before ++ after }, false)
    else
      match s.merge R absorbed mono start stop with
      | none => ({ s with runs := before ++ after }, true)
      | some merged => ({ s with runs := before ++ merged :: after }, true)

/-- The pieces of a block that were not taken yet, one after the other; `fails` counts those that
go well before one fails. The answer is that of `push`, `none` an error. -/
def pushPieces (mono : List Sample) (offset stop : ℕ) (hstop : stop < 2 ^ 64) (opens : Opens)
    (s : Runs S) (cursor : ℕ) (took : Bool) (fails : Option ℕ) : Runs S × Option Bool :=
  match h : missing stop cursor s.taken.set.runs with
  | none => (s, some took)
  | some (a, b) =>
    if s.admits a b opens then
      match slice mono offset a b with
      | none => (s, some took)
      | some block =>
        let (s', ok) := s.absorb R block a b (fails == some 0)
        if ok then
          have hb : b < 2 ^ 64 := Nat.lt_of_le_of_lt (missing_spec h).2.2 hstop
          pushPieces mono offset stop hstop opens
            { s' with taken := s'.taken.insert a b hb } b true (fails.map (· - 1))
        else (s', none)
    else (s, some took)
termination_by stop - cursor
decreasing_by
  have := missing_spec h
  omega

def push (s : Runs S) (mono : List Sample) (offset : ℕ) (opens : Opens) (fails : Option ℕ) :
    Runs S × Option Bool :=
  pushPieces R mono offset (min (offset + mono.length) (2 ^ 64 - 1)) (by omega) opens s offset
    false fails

/-- `failing` says in which run the flush fails, and what its resampler gave until then. -/
def flushRuns (s : Runs S) : Option (ℕ × List Sample) → List (Run S) → List (Run S)
  | _, [] => []
  | some (0, samples), run :: rest =>
    { run with stream := none, mono := run.mono ++ samples } :: rest
  | failing, run :: rest =>
    let expected := s.detectorFrames (run.stop - run.start)
    { run with
      stream := none
      mono := pad (finishInto R run.mono run.stream) expected } ::
      flushRuns s (failing.map fun p => (p.1 - 1, p.2)) rest

def flush (s : Runs S) (failing : Option (ℕ × List Sample)) : Runs S :=
  { s with runs := s.flushRuns R failing s.runs }

def releaseRun (c : Config) (opensAt : ℕ → ℕ) (run : Run S) : Run S :=
  let base := scale c run.start
  let reach := min ⌊nearest (nearest (opensAt base) / ratio c)⌋₊ (2 ^ 64 - 1)
  let target := min (max reach run.start) run.stop
  let exact := min (scale c target - base) run.mono.length
  if exact = 0 then run else { run with mono := run.mono.drop exact, start := target }

def release (s : Runs S) (opensAt : ℕ → ℕ) : Runs S :=
  { s with runs := s.runs.map (releaseRun s.config opensAt) }

end Runs

def writeF32 (sample : Sample) : Bytes := writeU32 sample

def writePadded (samples : List Sample) (expected : ℕ) : Bytes :=
  writeLen expected ++ (samples.take expected).flatMap writeF32 ++
    (List.replicate (expected - samples.length) 0).flatMap writeF32

namespace Runs

variable {S : Type}

def live (s : Runs S) : List (Run S) := s.runs.filter fun run => decide (run.start < run.stop)

def writeRunResume (c : Config) (run : Run S) : Bytes :=
  writeU64 (UInt64.ofNat run.start) ++ writeU64 (UInt64.ofNat run.stop) ++
    writePadded run.mono (scale c (run.stop - run.start))

def writeResume (s : Runs S) : Bytes :=
  writeLen s.live.length ++ s.live.flatMap (writeRunResume s.config) ++ writeCoverage s.taken

end Runs

structure BeatRunResume where
  mono : List Sample
  stop : ℕ
  start : ℕ
  deriving DecidableEq, Repr

structure BeatMarkResume where
  time : Sample
  confidence : Sample
  deriving DecidableEq, Repr

structure RawBeatsResume where
  beats : List BeatMarkResume
  downbeats : List BeatMarkResume
  deriving DecidableEq, Repr

structure BeatResume where
  origin : Option UInt64
  short : List ℕ
  taken : Coverage
  runs : List BeatRunResume
  windows : List (ℕ × RawBeatsResume)

def readF32 : BlobReader Sample := readU32

def readSamples : BlobReader (List Sample) := do
  let count ← readCount 4
  readMany readF32 count

def BeatRunResume.decode : BlobReader BeatRunResume := do
  let start ← readU64
  let stop ← readU64
  check .corrupt (start < stop)
  let mono ← readSamples
  pure ⟨mono, stop.toNat, start.toNat⟩

namespace BeatResume

def readRunsAfter : ℕ → Option ℕ → BlobReader (List BeatRunResume)
  | 0, _ => pure []
  | n + 1, previousEnd => do
    let run ← BeatRunResume.decode
    check .corrupt (∀ previous ∈ previousEnd, previous < run.start)
    let rest ← readRunsAfter n (some run.stop)
    pure (run :: rest)

def readRuns : BlobReader (List BeatRunResume) := do
  let count ← readCount 24
  readRunsAfter count none

/-- The part of `decode` that reads what `write_resume` of the runs wrote. -/
def readHeld : BlobReader (List BeatRunResume × Coverage) := do
  let runs ← readRuns
  let taken ← readCoverage
  pure (runs, taken)

def isFinite (x : Sample) : Bool := x &&& 0x7f800000 != 0x7f800000

def windowsValid (resume : BeatResume) : Bool :=
  (resume.short.all fun index => resume.windows.any fun w => w.1 == index) &&
    resume.windows.all fun w =>
      (w.2.beats ++ w.2.downbeats).all fun mark => isFinite mark.time && isFinite mark.confidence

def validate (resume : BeatResume) : Except BlobError Unit :=
  if (resume.runs.any fun run => run.mono.isEmpty) ||
      (resume.runs.any fun run => !resume.taken.covers run.start run.stop) ||
      !resume.windowsValid then .error .corrupt
  else .ok ()

end BeatResume

namespace Runs

variable {S : Type}

/-- `grants` are the answers of the pool, one for each run's buffer. -/
def restoreRuns (c : Config) (grants : ℕ → Bool) :
    ℕ → List BeatRunResume → Except BlobError (List (Run S))
  | _, [] => .ok []
  | n, run :: rest =>
    if run.mono.length = scale c (run.stop - run.start) ∧ grants n = true then
      (restoreRuns c grants (n + 1) rest).map fun restored =>
        ⟨none, run.mono, run.stop, run.start⟩ :: restored
    else .error .corrupt

def restore (s : Runs S) (grants : ℕ → Bool) (runs : List BeatRunResume) (taken : Coverage) :
    Except BlobError (Runs S) :=
  match restoreRuns s.config grants 0 runs with
  | .error e => .error e
  | .ok restored =>
    if restored.any fun run => !taken.covers run.start run.stop then .error .corrupt
    else
      let s' : Runs S := { s with runs := restored, taken := taken }
      if s'.config.budget < s'.held ∨
          min (s'.config.maxRuns + 1) (2 ^ 64 - 1) < s'.runs.length then .error .corrupt
      else .ok s'

end Runs

inductive Op where
  | push (mono : List Sample) (offset : ℕ) (opens : Opens) (fails : Option ℕ)
  | flush (failing : Option (ℕ × List Sample))
  | release (opensAt : ℕ → ℕ)

def step {S : Type} (R : Resampler S) (s : Runs S) : Op → Runs S
  | .push mono offset opens fails => (s.push R mono offset opens fails).1
  | .flush failing => s.flush R failing
  | .release opensAt => s.release opensAt

def run {S : Type} (R : Resampler S) (c : Config) (ops : List Op) : Runs S :=
  ops.foldl (step R) (Runs.new c)

end BeatRuns

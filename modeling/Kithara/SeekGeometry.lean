import Kithara.GridStamps
import Kithara.SpanClock
import Kithara.SpanInverse

/-! How many frames of a decoded packet lie before a seek target: the stamps of frames, the nearest
frame of a stamp, and the two counts a seek trims by. Durations are in nanoseconds. -/
namespace SeekGeometry

open CheckedArithmetic SpanRatio SpanAffine SpanMapping SpanGeometry SpanInvariant SpanInverse
open SpanClock (nanosPerSecond tryFrom)

structure AudioSpec where
  sampleRate : ℕ+
  channels : ℕ

inductive SignalError where
  | durationOverflow (frames sampleRate : ℕ)
  | frameCountOverflow (durationNanos sampleRate : ℕ)
  deriving DecidableEq

inductive DecodeError where
  | signal (source : SignalError)
  | invalidData (detail : String)
  | panicked
  deriving DecidableEq

def okOr {ε α : Type} (value : Option α) (error : ε) : Except ε α :=
  match value with
  | some value => .ok value
  | none => .error error

@[simp] theorem okOr_some {ε α : Type} (value : α) (error : ε) :
    okOr (some value) error = .ok value := rfl

@[simp] theorem okOr_none {ε α : Type} (error : ε) :
    okOr (none : Option α) error = .error error := rfl

theorem ok_bind {ε α β : Type} (value : α) (f : α → Except ε β) :
    (Except.ok value >>= f) = f value := rfl

theorem mapError_ok {ε ε' α : Type} (value : α) (f : ε → ε') :
    (Except.ok value : Except ε α).mapError f = .ok value := rfl

theorem mapError_error {ε ε' α : Type} (error : ε) (f : ε → ε') :
    (Except.error error : Except ε α).mapError f = .error (f error) := rfl

theorem error_bind {ε α β : Type} (error : ε) (f : α → Except ε β) :
    (Except.error error >>= f) = .error error := rfl

/-- The longest duration: 64-bit seconds and the nanoseconds below the next. -/
def maxDuration : ℕ := 2 ^ 64 * nanosPerSecond - 1

def addDuration (a b : ℕ) : Option ℕ := if a + b ≤ maxDuration then some (a + b) else none

theorem addDuration_eq_some {a b c : ℕ} : addDuration a b = some c ↔ a + b = c ∧ c ≤ maxDuration := by
  rw [addDuration]
  constructor
  · intro h
    split at h
    · cases h
      exact ⟨rfl, by assumption⟩
    · cases h
  · rintro ⟨rfl, h⟩
    exact if_pos h

def halfSecond : ℕ := 500000000

def durationFor (sampleRate : ℕ+) (frames : ℕ) : Except SignalError ℕ :=
  okOr (do
    let nanos ← checkedMul 128 frames nanosPerSecond
    tryFrom 64 (nanos / sampleRate)) (.durationOverflow frames sampleRate)

def frameAt (sampleRate : ℕ+) (timestamp : ℕ) : Except SignalError ℕ :=
  okOr (do
    let scaled ← checkedMul 64 (timestamp % nanosPerSecond) sampleRate
    let rounded ← checkedAdd 64 scaled halfSecond
    let frames ← checkedMul 64 (timestamp / nanosPerSecond) sampleRate
    checkedAdd 64 frames (rounded / nanosPerSecond)) (.frameCountOverflow timestamp sampleRate)

def saturating (bits value : ℕ) : ℕ := min value (2 ^ bits - 1)

def framesToTrim (framePts target sampleRate : ℕ) : ℕ :=
  if sampleRate = 0 ∨ target ≤ framePts then 0
  else
    let scaled := saturating 128 ((target - framePts) * sampleRate)
    saturating 64 (saturating 128 (scaled + halfSecond) / nanosPerSecond)

def secondNanos : ℕ+ := ⟨nanosPerSecond, by decide⟩

theorem secondNanos_coe : (secondNanos : ℕ) = nanosPerSecond := rfl

/-- The geometry of a chunk that carries no span of its own. Its mapping is affine, so no curve
takes part. -/
def sourceGeometry (sampleRate : ℕ+) (frameOffset frames timestamp : ℕ) :
    Option (SourceSpan SteadyRate) := do
  let _ ← checkedAdd 64 frameOffset frames
  let scaled ← checkedMul 128 frameOffset nanosPerSecond
  let nanos ← checkedMul 128 timestamp sampleRate
  let numerator ← checkedAdd 128 nanos (scaled % sampleRate)
  SourceSpan.ofAffine numerator nanosPerSecond secondNanos sampleRate frames

def framesToTrimPrefix (framePts target : ℕ) (sampleRate : ℕ+) : Except DecodeError ℕ :=
  if target ≤ framePts then .ok 0
  else do
    let first ← (frameAt sampleRate framePts).mapError .signal
    let basis ← okOr (sourceGeometry sampleRate first 1 framePts)
      (.invalidData "seek prefix PCM geometry overflow")
    let targetNumerator ← okOr (checkedMul 128 target sampleRate)
      (.invalidData "seek prefix source position overflow")
    let ratio ← okOr (outputRatioAtSource basis first (targetNumerator, secondNanos))
      (.invalidData "seek prefix inverse geometry overflow")
    let position ← okOr (tryFrom 64 (ratio.1 / ratio.2))
      (.invalidData "seek prefix physical position overflow")
    return position - first

/-- The stream time of a frame, in whole nanoseconds. -/
def stamp (sampleRate : ℕ+) (frame : ℕ) : ℕ := GridStamps.stamp halfSecond sampleRate frame

/-- A nanosecond stamp names its frame at these rates. -/
def Fine (sampleRate : ℕ+) : Prop :=
  (sampleRate : ℕ) ≤ halfSecond + Nat.gcd nanosPerSecond sampleRate

instance (sampleRate : ℕ+) : Decidable (Fine sampleRate) :=
  inferInstanceAs (Decidable (_ ≤ _))

variable {rate : ℕ+} {frame target trim : ℕ}

theorem fine_le (h : Fine rate) : (rate : ℕ) ≤ nanosPerSecond := by
  obtain ⟨parts, hparts⟩ := Nat.gcd_dvd_right nanosPerSecond (rate : ℕ)
  have hg : Nat.gcd nanosPerSecond rate ≤ nanosPerSecond := Nat.gcd_le_left _ (by decide)
  rw [Fine] at h
  rcases Nat.lt_or_ge parts 2 with hone | htwo
  · calc (rate : ℕ) = Nat.gcd nanosPerSecond rate * parts := hparts
      _ ≤ Nat.gcd nanosPerSecond rate * 1 := Nat.mul_le_mul_left _ (by omega)
      _ ≤ nanosPerSecond := by omega
  · have hdouble : Nat.gcd nanosPerSecond rate * 2 ≤ Nat.gcd nanosPerSecond rate * parts :=
      Nat.mul_le_mul_left _ htwo
    rw [← hparts] at hdouble
    simp only [halfSecond, nanosPerSecond] at *
    omega

theorem stamp_eq : stamp rate frame = frame * nanosPerSecond / rate := rfl

theorem durationFor_eq (hframe : frame < 2 ^ 64) :
    durationFor rate frame =
      if stamp rate frame < 2 ^ 64 then .ok (stamp rate frame)
      else .error (.durationOverflow frame rate) := by
  have hfits : frame * nanosPerSecond < 2 ^ 128 := by
    simp only [nanosPerSecond]
    omega
  rw [durationFor, checkedMul, if_pos hfits, stamp_eq, Option.bind_eq_bind, Option.bind_some,
    tryFrom]
  split
  · rw [okOr_some]
  · rw [okOr_none]

theorem nearest_split (rate : ℕ+) (timestamp : ℕ) :
    timestamp / nanosPerSecond * rate +
        (timestamp % nanosPerSecond * rate + halfSecond) / nanosPerSecond =
      GridStamps.nearest halfSecond rate timestamp := by
  have hsplit : timestamp * rate + halfSecond =
      timestamp % nanosPerSecond * rate + halfSecond +
        nanosPerSecond * (timestamp / nanosPerSecond * rate) := by
    conv_lhs => rw [← Nat.mod_add_div timestamp nanosPerSecond]
    ring
  rw [GridStamps.nearest]
  show _ = (timestamp * rate + halfSecond) / nanosPerSecond
  rw [hsplit, Nat.add_mul_div_left _ _ (by decide), Nat.add_comm]

/-- The stamp of a frame is read back as the frame. -/
theorem frameAt_stamp (hfine : Fine rate) (hframe : frame < 2 ^ 64) :
    frameAt rate (stamp rate frame) = .ok frame := by
  have hrate := fine_le hfine
  have hnearest := GridStamps.nearest_stamp (by decide) rate.pos hfine frame
  have hsplit := nearest_split rate (stamp rate frame)
  rw [stamp] at hsplit
  rw [hnearest, ← stamp] at hsplit
  have hmod := Nat.mod_lt (stamp rate frame) (y := nanosPerSecond) (by decide)
  have hscaled : stamp rate frame % nanosPerSecond * rate < 2 ^ 63 := by
    calc stamp rate frame % nanosPerSecond * rate
        ≤ nanosPerSecond * nanosPerSecond := Nat.mul_le_mul hmod.le hrate
      _ < 2 ^ 63 := by decide
  have hhalf : halfSecond < 2 ^ 63 := by decide
  have hwhole : stamp rate frame / nanosPerSecond * rate ≤ frame :=
    Nat.le_trans (Nat.le_add_right _ _) (Nat.le_of_eq hsplit)
  rw [frameAt, checkedMul, if_pos (by omega), Option.bind_eq_bind, Option.bind_some, checkedAdd,
    if_pos (by omega), Option.bind_some, checkedMul, if_pos (by omega), Option.bind_some,
    checkedAdd, if_pos (by omega), hsplit, okOr_some]

theorem framesToTrim_eq {framePts : ℕ} (hrate : (rate : ℕ) ≤ nanosPerSecond)
    (htarget : target < 2 ^ 64) (h : framePts < target) :
    framesToTrim framePts target rate =
      ((target - framePts) * rate + halfSecond) / nanosPerSecond := by
  have hscaled : (target - framePts) * rate ≤ (2 ^ 64 - 1) * nanosPerSecond :=
    Nat.mul_le_mul (by omega) hrate
  have hcount : ((target - framePts) * rate + halfSecond) / nanosPerSecond ≤ 2 ^ 64 - 1 := by
    apply Nat.le_of_lt_succ
    apply Nat.div_lt_of_lt_mul
    simp only [halfSecond, nanosPerSecond] at *
    omega
  have hwide : (2 ^ 64 - 1) * nanosPerSecond + halfSecond ≤ 2 ^ 128 - 1 := by decide
  have hpos : 0 < (rate : ℕ) := rate.pos
  rw [framesToTrim, if_neg (by omega)]
  simp only [saturating]
  rw [Nat.min_eq_left (a := (target - framePts) * rate) (by omega),
    Nat.min_eq_left (a := (target - framePts) * rate + halfSecond) (by omega),
    Nat.min_eq_left hcount]

/-- The mapping of one frame at its own stamp is the identity. -/
theorem sourceGeometry_stamp (hframe : frame + 1 < 2 ^ 64) :
    sourceGeometry rate frame 1 (stamp rate frame) =
      some ⟨rate, none, .rational ⟨frame * nanosPerSecond, secondNanos, nanosPerSecond, 0⟩, 1,
        0⟩ := by
  have hsum : stamp rate frame * rate + frame * nanosPerSecond % rate = frame * nanosPerSecond :=
    GridStamps.stamp_add_mod
  have hfits : frame * nanosPerSecond + nanosPerSecond < 2 ^ 128 := by
    simp only [nanosPerSecond]
    omega
  have hwide : frame * nanosPerSecond < 2 ^ 128 :=
    Nat.lt_of_le_of_lt (Nat.le_add_right _ _) hfits
  have hnanos : stamp rate frame * rate < 2 ^ 128 :=
    Nat.lt_of_le_of_lt (Nat.le_trans (Nat.le_add_right _ _) (Nat.le_of_eq hsum)) hwide
  have hnumerator : checkedAdd 128 (stamp rate frame * rate) (frame * nanosPerSecond % rate) =
      some (frame * nanosPerSecond) :=
    checkedAdd_eq_some.mpr ⟨hsum, hwide⟩
  rw [sourceGeometry]
  simp only [Option.bind_eq_bind, Option.bind_eq_some_iff]
  refine ⟨_, checkedAdd_eq_some.mpr ⟨rfl, hframe⟩, _, checkedMul_eq_some.mpr ⟨rfl, hwide⟩, _,
    checkedMul_eq_some.mpr ⟨rfl, hnanos⟩, _, hnumerator, ?_⟩
  have hvalue : (⟨frame * nanosPerSecond, secondNanos, nanosPerSecond, 0⟩ :
      Rational).progression.value 1 = ((frame * nanosPerSecond + nanosPerSecond : ℕ) : ℤ) := by
    simp [Rational.progression, ArithmeticProgression.Progression.value]
  have hwhole : frame * nanosPerSecond / secondNanos = frame := by
    rw [secondNanos_coe]
    exact Nat.mul_div_cancel frame (by decide)
  refine ofProgression_eq_some.mpr ⟨Nat.one_pos, ?_, ?_, ?_, rfl⟩
  · constructor
    case linear =>
      show nanosPerSecond * 1 < 2 ^ 128
      decide
    case product => decide
    case change =>
      show Nat.choose 1 2 * 0 < 2 ^ 128
      decide
    case lastChange =>
      show 0 * (1 - 1) < 2 ^ 128
      decide
    case forward =>
      intro _
      rw [Nat.sub_self, progression_stepAt_zero]
      exact Int.natCast_nonneg _
    case lastStep =>
      intro _
      rw [Nat.sub_self, progression_stepAt_zero]
      show (nanosPerSecond : ℤ) < 2 ^ 128
      decide
    case bounded =>
      rw [hvalue]
      exact_mod_cast hfits
  · rw [hwhole]
    omega
  · intro n hn
    have hlast := (numeratorAt_eq_some.mp hn).2.2.2.2.2.1
    rw [hvalue] at hlast
    have hn : n = (frame + 1) * nanosPerSecond := by
      rw [Nat.succ_mul]
      exact_mod_cast hlast
    show n / (secondNanos : ℕ) < 2 ^ 64
    rw [hn, secondNanos_coe, Nat.mul_div_cancel _ (by decide)]
    exact hframe

theorem new_whole (n : ℕ) : Ratio.new n nonZeroMin = some ⟨n, nonZeroMin⟩ :=
  new_of_lowest (r := ⟨n, nonZeroMin⟩) (Nat.coprime_one_right n)

theorem new_scaled (n : ℕ) : Ratio.new (n * nanosPerSecond) secondNanos = some ⟨n, nonZeroMin⟩ := by
  refine new_of_cross (r := ⟨n, nonZeroMin⟩) (Nat.coprime_one_right n) ?_
  rw [secondNanos_coe]
  exact Nat.mul_one _

theorem difference_self (hframe : frame < 2 ^ 128) :
    Offset.difference ⟨frame, nonZeroMin⟩ ⟨frame, nonZeroMin⟩ =
      some (.add ⟨0, nonZeroMin⟩) := by
  have hcommon : Ratio.common nonZeroMin nonZeroMin = some nonZeroMin := by
    have hshared : nonZero (divisor nonZeroMin nonZeroMin) = some nonZeroMin := by
      rw [divisor_eq_gcd]
      rfl
    simp only [Ratio.common, Option.bind_eq_bind, Option.bind_eq_some_iff, quotient_eq_div]
    exact ⟨_, hshared, 1, checkedMul_eq_some.mpr ⟨rfl, by decide⟩, rfl⟩
  have hleft : Ratio.atDenominator ⟨frame, nonZeroMin⟩ nonZeroMin = some frame := by
    rw [Ratio.atDenominator, quotient_eq_div]
    refine checkedMul_eq_some.mpr ⟨?_, hframe⟩
    show frame * (1 / 1) = frame
    rw [Nat.div_self Nat.one_pos, Nat.mul_one]
  simp only [Offset.difference, hcommon, Option.bind_eq_bind, Option.bind_some, hleft, ge_iff_le,
    Nat.le_refl, if_true, Nat.sub_self, new_whole, Option.pure_def]

/-- The inverse of an identity gives every position back. -/
theorem outputRatio_identity {s : SourceSpan SteadyRate} (hframe : frame < 2 ^ 128)
    (hs : s.mapping = .rational ⟨frame * nanosPerSecond, secondNanos, nanosPerSecond, 0⟩)
    (position : ℕ) : ∃ ratio, outputRatioAtSource s frame (position, secondNanos) = some ratio ∧
      ratio.1 / ratio.2 = position / nanosPerSecond := by
  have hinverse : sourceInverse s frame = some ⟨⟨1, nonZeroMin⟩, .add ⟨0, nonZeroMin⟩⟩ := by
    have hscale : Ratio.new secondNanos secondNanos = some ⟨1, nonZeroMin⟩ := by
      have hone := new_scaled 1
      rwa [Nat.one_mul] at hone
    have hstep : nonZero nanosPerSecond = some secondNanos := nonZero_eq_some.mpr rfl
    rw [sourceInverse, hs]
    dsimp only
    rw [if_pos rfl]
    simp only [Option.bind_eq_bind, Option.bind_eq_some_iff]
    exact ⟨_, hstep, _, hscale, _, new_whole frame, _, new_scaled frame, _,
      difference_self hframe, rfl⟩
  obtain ⟨r, hr⟩ := new_isSome position secondNanos
  have hdiv := new_div hr
  rw [secondNanos_coe] at hdiv
  have hout : ∀ output : Ratio, r.mul ⟨1, nonZeroMin⟩ = some output →
      outputRatioAtSource s frame (position, secondNanos) =
        some (output.numerator, output.denominator) := by
    intro output hmul
    simp only [outputRatioAtSource, outputAt, Affine.apply, Option.bind_eq_bind,
      Option.bind_eq_some_iff]
    exact ⟨_, hinverse, _, hr, _, ⟨_, hmul, rfl⟩, rfl⟩
  by_cases hunit : r.numerator = r.denominator
  · refine ⟨_, hout ⟨1, nonZeroMin⟩ (if_pos hunit), ?_⟩
    rw [← hdiv, hunit, Nat.div_self r.denominator.pos]
    rfl
  · have hmul : r.mul ⟨1, nonZeroMin⟩ = some r := by
      rw [Ratio.mul, if_neg hunit]
      rfl
    exact ⟨_, hout r hmul, hdiv⟩

/-- The prefix count goes to the last frame that is not past the target. -/
theorem framesToTrimPrefix_eq (hfine : Fine rate) (htarget : target < 2 ^ 64)
    (h : stamp rate frame < target) :
    framesToTrimPrefix (stamp rate frame) target rate =
      .ok (target * rate / nanosPerSecond - frame) := by
  have hrate := fine_le hfine
  have hbefore : frame * nanosPerSecond < target * rate :=
    GridStamps.lt_of_stamp_lt rate.pos h
  have hframe : frame < target := by
    apply Nat.lt_of_mul_lt_mul_right (a := nanosPerSecond)
    exact Nat.lt_of_lt_of_le hbefore (Nat.mul_le_mul_left target hrate)
  have hnumerator : target * rate < 2 ^ 128 := by
    calc target * rate ≤ target * nanosPerSecond := Nat.mul_le_mul_left target hrate
      _ ≤ 2 ^ 64 * nanosPerSecond := Nat.mul_le_mul_right nanosPerSecond htarget.le
      _ < 2 ^ 128 := by decide
  have hposition : target * rate / nanosPerSecond < 2 ^ 64 := by
    apply Nat.lt_of_le_of_lt _ htarget
    exact Nat.div_le_of_le_mul (by rw [Nat.mul_comm]; exact Nat.mul_le_mul_right target hrate)
  obtain ⟨ratio, hratio, hdiv⟩ := outputRatio_identity
    (s := ⟨rate, none, .rational ⟨frame * nanosPerSecond, secondNanos, nanosPerSecond, 0⟩, 1, 0⟩)
    (Nat.lt_trans (Nat.lt_trans hframe htarget) (by decide)) rfl (target * rate)
  rw [framesToTrimPrefix, if_neg (by omega), frameAt_stamp hfine (Nat.lt_trans hframe htarget),
    mapError_ok, ok_bind, sourceGeometry_stamp (by omega),
    okOr_some, ok_bind, checkedMul_eq_some.mpr ⟨rfl, hnumerator⟩, okOr_some, ok_bind, hratio,
    okOr_some, ok_bind, hdiv, SpanClock.tryFrom_of_lt hposition, okOr_some, ok_bind]
  rfl

end SeekGeometry

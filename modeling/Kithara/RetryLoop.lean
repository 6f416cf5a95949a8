import Kithara.RangeResponses

/-! The retry policy of network requests and the loop that spends it. The backoff is a duration
times an unsigned power, clamped afterwards: both steps are partial, and their overflow ends the
loop here as it does in the code. -/
namespace RetryLoop

open RangeResponses

/-- A span of time in nanoseconds, whose seconds fit an unsigned 64-bit word. -/
structure Duration where
  nanos : ℕ
  bounded : nanos < 2 ^ 64 * 10 ^ 9
  deriving DecidableEq

namespace Duration

def zero : Duration := ⟨0, by decide⟩

def maximum : Duration := ⟨2 ^ 64 * 10 ^ 9 - 1, by decide⟩

def fromMillis (millis : UInt64) : Duration :=
  ⟨millis.toNat * 10 ^ 6, by
    have := millis.toNat_lt
    omega⟩

def checkedMul (d : Duration) (k : ℕ) : Option Duration :=
  if h : d.nanos * k < 2 ^ 64 * 10 ^ 9 then some ⟨d.nanos * k, h⟩ else none

protected def min (a b : Duration) : Duration := if a.nanos ≤ b.nanos then a else b

@[simp] theorem min_nanos (a b : Duration) : (Duration.min a b).nanos = min a.nanos b.nanos := by
  rw [Duration.min]
  split <;> omega

end Duration

/-- An unsigned 32-bit power. Where it overflows it panics under overflow checks and wraps to a
wrong factor without them. -/
def checkedPow (base exponent : ℕ) : Option ℕ :=
  if base ^ exponent < 2 ^ 32 then some (base ^ exponent) else none

structure RetryPolicy where
  baseDelay : Duration
  maxDelay : Duration
  maxRetries : UInt32

namespace RetryPolicy

variable (policy : RetryPolicy)

def backoffBase : ℕ := 2

def delayForAttempt (attempt : ℕ) : Option Duration :=
  if attempt = 0 then some .zero
  else do
    let factor ← checkedPow backoffBase (attempt - 1)
    let exponentialDelay ← policy.baseDelay.checkedMul factor
    some (.min exponentialDelay policy.maxDelay)

def shouldRetry (error : NetError) (attempt : ℕ) : Bool :=
  if policy.maxRetries.toNat ≤ attempt then false else error.retryability = .transient

def idealDelay (attempt : ℕ) : ℕ :=
  if attempt = 0 then 0
  else min (policy.baseDelay.nanos * 2 ^ (attempt - 1)) policy.maxDelay.nanos

/-- The backoff of an attempt stays within the arithmetic it is computed in. -/
def Fits (attempt : ℕ) : Prop :=
  attempt = 0 ∨
    (attempt ≤ 32 ∧ policy.baseDelay.nanos * 2 ^ (attempt - 1) < 2 ^ 64 * 10 ^ 9)

theorem power_fits {attempt : ℕ} (_ : attempt ≠ 0) : 2 ^ (attempt - 1) < 2 ^ 32 ↔ attempt ≤ 32 := by
  rw [Nat.pow_lt_pow_iff_right (by decide)]
  omega

theorem delayForAttempt_of_fits {attempt : ℕ} (h : policy.Fits attempt) :
    ∃ delay, policy.delayForAttempt attempt = some delay ∧
      delay.nanos = policy.idealDelay attempt := by
  by_cases hzero : attempt = 0
  · exact ⟨.zero, by simp [delayForAttempt, hzero], by simp [idealDelay, hzero, Duration.zero]⟩
  · obtain ⟨hpow, hmul⟩ := h.resolve_left hzero
    have hfactor : checkedPow backoffBase (attempt - 1) = some (2 ^ (attempt - 1)) :=
      if_pos ((power_fits hzero).mpr hpow)
    have hproduct : policy.baseDelay.checkedMul (2 ^ (attempt - 1)) = some ⟨_, hmul⟩ :=
      dif_pos hmul
    refine ⟨.min ⟨_, hmul⟩ policy.maxDelay, ?_, ?_⟩
    · rw [delayForAttempt, if_neg hzero, hfactor, Option.bind_eq_bind, Option.bind_some, hproduct]
      rfl
    · rw [Duration.min_nanos, idealDelay, if_neg hzero]

theorem delayForAttempt_eq_none {attempt : ℕ} (h : ¬ policy.Fits attempt) :
    policy.delayForAttempt attempt = none := by
  obtain ⟨hzero, hfit⟩ := not_or.mp h
  rw [delayForAttempt, if_neg hzero]
  by_cases hpow : attempt ≤ 32
  · have hfactor : checkedPow backoffBase (attempt - 1) = some (2 ^ (attempt - 1)) :=
      if_pos ((power_fits hzero).mpr hpow)
    have hproduct : policy.baseDelay.checkedMul (2 ^ (attempt - 1)) = none :=
      dif_neg fun hmul => hfit ⟨hpow, hmul⟩
    rw [hfactor, Option.bind_eq_bind, Option.bind_some, hproduct]
    rfl
  · have hfactor : checkedPow backoffBase (attempt - 1) = none :=
      if_neg (mt (power_fits hzero).mp hpow)
    rw [hfactor]
    rfl

end RetryPolicy

inductive Outcome (T : Type*) where
  | returned (result : Except NetError T)
  | overflowed

/-- A run of the loop: the attempts it made, the waits it began, and its end. -/
structure Run (T : Type*) where
  attempts : ℕ
  waits : List Duration
  outcome : Outcome T

variable {T : Type*} {policy : RetryPolicy}

def Run.last (waits : List Duration) (outcome : Outcome T) : Run T := ⟨1, waits, outcome⟩

def Run.after (delay : Duration) (run : Run T) : Run T :=
  ⟨run.attempts + 1, delay :: run.waits, run.outcome⟩

/-- The loop from an attempt on. An attempt answers or is cancelled, which `op` gives by its number;
`interrupted` says which waits are cancelled. -/
def retryLoop (policy : RetryPolicy) (op : ℕ → Option (Except NetError T))
    (interrupted : ℕ → Bool) (attempt : ℕ) : Run T :=
  match op attempt with
  | none => .last [] (.returned (.error .cancelled))
  | some (.ok value) => .last [] (.returned (.ok value))
  | some (.error error) =>
    if _h : policy.shouldRetry error attempt then
      match policy.delayForAttempt attempt with
      | none => .last [] .overflowed
      | some delay =>
        if interrupted attempt then .last [delay] (.returned (.error .cancelled))
        else (retryLoop policy op interrupted (attempt + 1)).after delay
    else
      .last [] (.returned (.error
        (if 0 < policy.maxRetries.toNat ∧ error.retryability = .transient then
          .retryExhausted policy.maxRetries.toNat error
        else error)))
termination_by policy.maxRetries.toNat - attempt
decreasing_by
  unfold RetryPolicy.shouldRetry at _h
  split at _h
  · exact absurd _h Bool.false_ne_true
  · omega

variable {op : ℕ → Option (Except NetError T)} {interrupted : ℕ → Bool}

def Failed (op : ℕ → Option (Except NetError T)) (attempt : ℕ) : Prop :=
  ∃ error, op attempt = some (.error error) ∧ error.retryability = .transient

/-- The attempts up to this one failed, and no wait between them was cancelled. -/
def Reaches (policy : RetryPolicy) (op : ℕ → Option (Except NetError T))
    (interrupted : ℕ → Bool) (attempt : ℕ) : Prop :=
  attempt ≤ policy.maxRetries.toNat ∧
    ∀ n < attempt, Failed op n ∧ interrupted n = false

/-- What a run of the loop from an attempt on does at each attempt it reaches. -/
structure RetryLaw (policy : RetryPolicy) (op : ℕ → Option (Except NetError T))
    (interrupted : ℕ → Bool) (start : ℕ) (run : Run T) : Prop where
  /-- No computation of a delay overflows. -/
  timed : run.outcome ≠ .overflowed
  bounded : start + run.attempts ≤ policy.maxRetries.toNat + 1
  answered : ∀ n value, start ≤ n → Reaches policy op interrupted n → op n = some (.ok value) →
    start + run.attempts = n + 1 ∧ run.outcome = .returned (.ok value)
  refused : ∀ n error, start ≤ n → Reaches policy op interrupted n →
    op n = some (.error error) → error.retryability = .fatal →
    start + run.attempts = n + 1 ∧ run.outcome = .returned (.error error)
  /-- The last failure is wrapped when there was a budget to spend. -/
  spent : ∀ n error, start ≤ n → Reaches policy op interrupted n →
    op n = some (.error error) → error.retryability = .transient → n = policy.maxRetries.toNat →
    start + run.attempts = n + 1 ∧
      run.outcome = .returned (.error (if policy.maxRetries = 0 then error
        else .retryExhausted policy.maxRetries.toNat error))
  cancelled : ∀ n, start ≤ n → Reaches policy op interrupted n →
    (op n = none ∨ n < policy.maxRetries.toNat ∧ Failed op n ∧ interrupted n = true) →
    start + run.attempts = n + 1 ∧ run.outcome = .returned (.error .cancelled)
  /-- Every attempt but the first comes after its wait. -/
  waited : run.attempts ≤ run.waits.length + 1 ∧ run.waits.length ≤ run.attempts
  delays : ∀ n delay, run.waits[n]? = some delay → delay.nanos = policy.idealDelay (start + n)

def DelaysFit (policy : RetryPolicy) (op : ℕ → Option (Except NetError T))
    (interrupted : ℕ → Bool) (start : ℕ) : Prop :=
  ∀ n, start ≤ n → n < policy.maxRetries.toNat → Reaches policy op interrupted n →
    Failed op n → policy.Fits n

variable {start : ℕ}

theorem shouldRetry_iff {error : NetError} :
    policy.shouldRetry error start = true ↔
      start < policy.maxRetries.toNat ∧ error.retryability = .transient := by
  rw [RetryPolicy.shouldRetry]
  split
  · exact iff_of_false Bool.false_ne_true fun h => by omega
  · rw [decide_eq_true_iff]
    exact ⟨fun h => ⟨by omega, h⟩, fun h => h.2⟩

theorem reached_last (hstop : ¬ (Failed op start ∧ interrupted start = false)) {n : ℕ}
    (hle : start ≤ n) (h : Reaches policy op interrupted n) : n = start := by
  rcases Nat.lt_or_eq_of_le hle with hlt | heq
  · exact absurd (h.2 start hlt) hstop
  · exact heq.symm

theorem reaches_succ (h : Reaches policy op interrupted start)
    (hlt : start < policy.maxRetries.toNat) (hfail : Failed op start)
    (hrun : interrupted start = false) : Reaches policy op interrupted (start + 1) := by
  constructor
  · omega
  · intro n hn
    rcases Nat.lt_succ_iff_lt_or_eq.mp hn with hn | rfl
    · exact h.2 n hn
    · exact ⟨hfail, hrun⟩

theorem retryLaw_last {waits : List Duration} {result : Except NetError T}
    (hreach : Reaches policy op interrupted start)
    (hlast : ∀ n, start ≤ n → Reaches policy op interrupted n → n = start)
    (hok : ∀ value, op start = some (.ok value) → result = .ok value)
    (hfatal : ∀ error, op start = some (.error error) → error.retryability = .fatal →
      result = .error error)
    (hspent : ∀ error, op start = some (.error error) → error.retryability = .transient →
      start = policy.maxRetries.toNat → result = .error (if policy.maxRetries = 0 then error
        else .retryExhausted policy.maxRetries.toNat error))
    (hcut : (op start = none ∨ start < policy.maxRetries.toNat ∧ Failed op start ∧
      interrupted start = true) → result = .error .cancelled)
    (hwaits : waits.length ≤ 1)
    (hdelays : ∀ delay ∈ waits, delay.nanos = policy.idealDelay start) :
    RetryLaw policy op interrupted start (.last waits (.returned result)) where
  timed := by
    intro h
    cases h
  bounded := Nat.add_le_add_right hreach.1 1
  answered := by
    intro n value hle hn hop
    obtain rfl := hlast n hle hn
    exact ⟨rfl, congrArg Outcome.returned (hok value hop)⟩
  refused := by
    intro n error hle hn hop herror
    obtain rfl := hlast n hle hn
    exact ⟨rfl, congrArg Outcome.returned (hfatal error hop herror)⟩
  spent := by
    intro n error hle hn hop herror hmax
    obtain rfl := hlast n hle hn
    exact ⟨rfl, congrArg Outcome.returned (hspent error hop herror hmax)⟩
  cancelled := by
    intro n hle hn hc
    obtain rfl := hlast n hle hn
    exact ⟨rfl, congrArg Outcome.returned (hcut hc)⟩
  waited := ⟨Nat.le_add_left 1 waits.length, hwaits⟩
  delays := by
    intro n delay h
    have hn : n < waits.length := (List.getElem?_eq_some_iff.mp h).1
    obtain rfl : n = 0 := by omega
    exact hdelays delay (List.mem_of_getElem? h)

theorem retryLaw_after {delay : Duration} {run : Run T}
    (h : RetryLaw policy op interrupted (start + 1) run) (hfail : Failed op start)
    (hlt : start < policy.maxRetries.toNat) (hrun : interrupted start = false)
    (hdelay : delay.nanos = policy.idealDelay start) :
    RetryLaw policy op interrupted start (run.after delay) := by
  obtain ⟨error, hop, htransient⟩ := hfail
  have hcount : start + (run.attempts + 1) = start + 1 + run.attempts := by omega
  have hnext : ∀ n, start ≤ n → n ≠ start → start + 1 ≤ n := by
    intro n hle hne
    omega
  constructor
  case timed => exact h.timed
  case bounded => exact le_of_eq_of_le hcount h.bounded
  case answered =>
    intro n value hle hn hv
    rw [Run.after, hcount]
    refine h.answered n value (hnext n hle ?_) hn hv
    rintro rfl
    rw [hop] at hv
    cases hv
  case refused =>
    intro n e hle hn he hfatal
    rw [Run.after, hcount]
    refine h.refused n e (hnext n hle ?_) hn he hfatal
    rintro rfl
    rw [hop] at he
    cases he
    rw [htransient] at hfatal
    cases hfatal
  case spent =>
    intro n e hle hn he htr hmax
    rw [Run.after, hcount]
    refine h.spent n e (hnext n hle ?_) hn he htr hmax
    rintro rfl
    omega
  case cancelled =>
    intro n hle hn hc
    rw [Run.after, hcount]
    refine h.cancelled n (hnext n hle ?_) hn hc
    rintro rfl
    rcases hc with hnone | ⟨-, -, hcut⟩
    · rw [hop] at hnone
      cases hnone
    · rw [hrun] at hcut
      cases hcut
  case waited =>
    have := h.waited
    constructor
    · exact Nat.succ_le_succ this.1
    · exact Nat.succ_le_succ this.2
  case delays =>
    intro n d hd
    cases n with
    | zero =>
      obtain rfl : delay = d := Option.some.inj hd
      exact hdelay
    | succ n =>
      have hd := h.delays n d hd
      rwa [Nat.add_assoc, Nat.add_comm 1 n] at hd

theorem retryLaw_of_fit (hreach : Reaches policy op interrupted start)
    (hfit : DelaysFit policy op interrupted start) :
    RetryLaw policy op interrupted start (retryLoop policy op interrupted start) := by
  induction start using retryLoop.induct policy op interrupted with
  | case1 start hop =>
    rw [retryLoop, hop]
    have hstop : ¬ (Failed op start ∧ interrupted start = false) := by
      rintro ⟨⟨error, he, -⟩, -⟩
      rw [hop] at he
      cases he
    exact retryLaw_last hreach (fun n => reached_last hstop) (by simp [hop]) (by simp [hop])
      (by simp [hop]) (fun _ => rfl) (Nat.zero_le 1) (by simp)
  | case2 start value hop =>
    rw [retryLoop, hop]
    have hfail : ¬ Failed op start := by
      rintro ⟨error, he, -⟩
      rw [hop] at he
      cases he
    refine retryLaw_last hreach (fun n => reached_last fun h => hfail h.1) ?_ (by simp [hop])
      (by simp [hop]) (by simp [hop, hfail]) (Nat.zero_le 1) (by simp)
    intro v hv
    rw [hop] at hv
    cases hv
    rfl
  | case3 start error hop hretry hdelay =>
    obtain ⟨hlt, htransient⟩ := shouldRetry_iff.mp hretry
    obtain ⟨delay, hsome, -⟩ := policy.delayForAttempt_of_fits
      (hfit start (Nat.le_refl start) hlt hreach ⟨error, hop, htransient⟩)
    rw [hdelay] at hsome
    cases hsome
  | case4 start error hop hretry delay hdelay hcut =>
    obtain ⟨hlt, htransient⟩ := shouldRetry_iff.mp hretry
    obtain ⟨ideal, hsome, hideal⟩ := policy.delayForAttempt_of_fits
      (hfit start (Nat.le_refl start) hlt hreach ⟨error, hop, htransient⟩)
    rw [hdelay] at hsome
    obtain rfl := Option.some.inj hsome
    have hrun : retryLoop policy op interrupted start =
        .last [delay] (.returned (.error .cancelled)) := by
      rw [retryLoop, hop]
      simp [hretry, hdelay, hcut]
    rw [hrun]
    refine retryLaw_last hreach (fun n => reached_last fun h => ?_) (by simp [hop]) ?_ ?_
      (fun _ => rfl) (Nat.le_refl 1) (by simpa using hideal)
    · rw [hcut] at h
      cases h.2
    · intro e he hfatal
      rw [hop] at he
      cases he
      rw [htransient] at hfatal
      cases hfatal
    · intro e he _ hmax
      omega
  | case5 start error hop hretry delay hdelay hcut ih =>
    obtain ⟨hlt, htransient⟩ := shouldRetry_iff.mp hretry
    have hfail : Failed op start := ⟨error, hop, htransient⟩
    have hgo : interrupted start = false := by simpa using hcut
    obtain ⟨ideal, hsome, hideal⟩ := policy.delayForAttempt_of_fits
      (hfit start (Nat.le_refl start) hlt hreach hfail)
    rw [hdelay] at hsome
    obtain rfl := Option.some.inj hsome
    have hrun : retryLoop policy op interrupted start =
        (retryLoop policy op interrupted (start + 1)).after delay := by
      rw [retryLoop, hop]
      simp [hretry, hdelay, hgo]
    rw [hrun]
    refine retryLaw_after (ih (reaches_succ hreach hlt hfail hgo) ?_) hfail hlt hgo hideal
    intro n hle
    exact hfit n (by omega)
  | case6 start error hop hretry =>
    have hstop : ¬ (start < policy.maxRetries.toNat ∧ error.retryability = .transient) :=
      mt shouldRetry_iff.mpr hretry
    have hlast : ∀ n, start ≤ n → Reaches policy op interrupted n → n = start := by
      intro n hle hn
      rcases Nat.lt_or_eq_of_le hle with hlt | heq
      · obtain ⟨⟨e, he, htransient⟩, -⟩ := hn.2 start hlt
        rw [hop] at he
        cases he
        exact absurd ⟨Nat.lt_of_lt_of_le hlt hn.1, htransient⟩ hstop
      · exact heq.symm
    rw [retryLoop, hop]
    simp only [hretry, Bool.false_eq_true, dite_false]
    refine retryLaw_last hreach hlast (by simp [hop]) ?_ ?_ ?_ (Nat.zero_le 1) (by simp)
    · intro e he hfatal
      rw [hop] at he
      cases he
      simp [hfatal]
    · intro e he htransient hmax
      rw [hop] at he
      cases he
      by_cases hzero : policy.maxRetries = 0
      · simp [hzero]
      · have hpos : 0 < policy.maxRetries.toNat :=
          Nat.pos_of_ne_zero fun h => hzero (UInt32.toNat_inj.mp h)
        simp [hzero, hpos, htransient]
    · rintro (hnone | ⟨hlt, ⟨e, he, htransient⟩, -⟩)
      · rw [hop] at hnone
        cases hnone
      · rw [hop] at he
        cases he
        exact absurd ⟨hlt, htransient⟩ hstop

theorem overflowed_of_unfit {n : ℕ} (hle : start ≤ n) (hlt : n < policy.maxRetries.toNat)
    (hreach : Reaches policy op interrupted n) (hfail : Failed op n) (hfit : ¬ policy.Fits n) :
    (retryLoop policy op interrupted start).outcome = .overflowed := by
  obtain ⟨k, rfl⟩ := Nat.exists_eq_add_of_le hle
  induction k generalizing start with
  | zero =>
    obtain ⟨error, hop, htransient⟩ := hfail
    have hretry : policy.shouldRetry error (start + 0) = true :=
      shouldRetry_iff.mpr ⟨hlt, htransient⟩
    have hdelay := policy.delayForAttempt_eq_none hfit
    rw [Nat.add_zero] at hop hretry hdelay
    rw [retryLoop, hop]
    simp [hretry, hdelay, Run.last]
  | succ k ih =>
    obtain ⟨⟨error, hop, htransient⟩, hgo⟩ := hreach.2 start (by omega)
    have hretry : policy.shouldRetry error start = true :=
      shouldRetry_iff.mpr ⟨by omega, htransient⟩
    have hnext : start + 1 + k = start + (k + 1) := by omega
    rw [retryLoop, hop]
    simp only [hretry, dite_true, hgo]
    cases policy.delayForAttempt start with
    | none => rfl
    | some delay =>
      refine ih (Nat.le_add_right (start + 1) k) ?_ ?_ ?_ ?_
      all_goals rwa [hnext]

theorem reaches_zero : Reaches policy op interrupted 0 :=
  ⟨Nat.zero_le _, fun _ h => absurd h (Nat.not_lt_zero _)⟩

theorem retryLaw_iff (policy : RetryPolicy) (op : ℕ → Option (Except NetError T))
    (interrupted : ℕ → Bool) :
    RetryLaw policy op interrupted 0 (retryLoop policy op interrupted 0) ↔
      DelaysFit policy op interrupted 0 := by
  constructor
  · intro h n hle hlt hreach hfail
    by_cases hfit : policy.Fits n
    · exact hfit
    · exact absurd (overflowed_of_unfit hle hlt hreach hfail hfit) h.timed
  · exact retryLaw_of_fit reaches_zero

end RetryLoop

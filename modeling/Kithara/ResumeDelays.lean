import Kithara.ResumedBytes
import Kithara.RetryLoop

/-! The second loop that waits by the retry policy: a body that resumes counts its own retries and
backs off before each of them. -/
namespace ResumeDelays

open RangeResponses ResumableBody ResumedBytes RetryLoop TransitionSystem

structure Paced where
  body : State
  waits : List Duration
  overflowed : Bool

namespace Paced

variable (policy : RetryPolicy)

def Enabled (s : Paced) (a : Action) : Prop := s.overflowed = false ∧ s.body.Enabled a

/-- The delay is computed from the retries already spent, before this one is counted. -/
def next (s : Paced) : Action → Paced
  | .poll read =>
    match (s.body.nextChunk read).phase with
    | .healing =>
      match policy.delayForAttempt s.body.resumes with
      | none => { s with overflowed := true }
      | some delay => { s with body := s.body.nextChunk read, waits := s.waits ++ [delay] }
    | _ => { s with body := s.body.nextChunk read }
  | .refetch outcome => { s with body := s.body.heal outcome }

structure Lawful (s : Paced) : Prop where
  timed : s.overflowed = false
  counted : s.waits.length = s.body.resumes
  bounded : s.body.resumes ≤ policy.maxRetries.toNat
  delays : ∀ n delay, s.waits[n]? = some delay → delay.nanos = policy.idealDelay n

def RetryFits (s : Paced) (a : Action) : Prop :=
  ∀ read, a = .poll read → (s.body.nextChunk read).phase = .healing →
    policy.Fits s.body.resumes

end Paced

def machine (policy : RetryPolicy) : Machine Paced Action where
  Enabled := Paced.Enabled
  next := Paced.next policy

def begin (policy : RetryPolicy) (first : ByteStream) (url : String) (baseStart : ℕ)
    (finish : Option ℕ) : Paced where
  body := wrapResumable first url baseStart finish policy.maxRetries.toNat
  waits := []
  overflowed := false

variable {policy : RetryPolicy} {s : Paced}

theorem heal_phase (body : State) (outcome : Refetch) : (body.heal outcome).phase ≠ .healing := by
  cases outcome with
  | cancelled => exact Phase.noConfusion
  | failed error => exact Phase.noConfusion
  | responded response =>
    obtain ⟨error, herror⟩ | ⟨stream, _, _, hheal⟩ := heal_responded body response
    · rw [herror]
      exact Phase.noConfusion
    · rw [hheal]
      exact Phase.noConfusion

theorem outstanding_eq_zero {phase : Phase} (h : phase ≠ .healing) : outstanding phase = 0 := by
  cases phase with
  | healing => exact absurd rfl h
  | reading => rfl
  | finished terminal => rfl

theorem next_budget (a : Action) (henabled : s.Enabled a)
    (h : s.body.maxRetries = policy.maxRetries.toNat) :
    (s.next policy a).body.maxRetries = policy.maxRetries.toNat := by
  have hbody := (next_spends a henabled.2).2.2.trans h
  cases a with
  | refetch outcome => exact hbody
  | poll read =>
    rw [Paced.next]
    split
    · split
      · exact h
      · exact hbody
    · exact hbody

theorem next_of_spending {read : Poll} (h : (s.body.nextChunk read).phase = .healing)
    {delay : Duration} (hdelay : policy.delayForAttempt s.body.resumes = some delay) :
    s.next policy (.poll read) =
      { s with body := s.body.nextChunk read, waits := s.waits ++ [delay] } := by
  rw [Paced.next, h, hdelay]

theorem next_of_quiet {read : Poll} (h : (s.body.nextChunk read).phase ≠ .healing) :
    s.next policy (.poll read) = { s with body := s.body.nextChunk read } := by
  rw [Paced.next]
  split
  · rename_i hphase
    exact absurd hphase h
  · rfl

theorem lawful_of_body {body : State} (h : s.Lawful policy)
    (hresumes : body.resumes = s.body.resumes) : Paced.Lawful policy { s with body } where
  timed := h.timed
  counted := h.counted.trans hresumes.symm
  bounded := hresumes ▸ h.bounded
  delays := h.delays

theorem lawful_next_iff (a : Action) (hbudget : s.body.maxRetries = policy.maxRetries.toNat)
    (h : s.Lawful policy) (henabled : s.Enabled a) :
    (s.next policy a).Lawful policy ↔ s.RetryFits policy a := by
  obtain ⟨hspent, hlimit, -⟩ := next_spends a henabled.2
  have hlimit := hlimit (hbudget ▸ h.bounded)
  cases a with
  | refetch outcome =>
    have hphase : s.body.phase = .healing := henabled.2
    rw [hphase, State.next, outstanding_eq_zero (heal_phase s.body outcome)] at hspent
    have hresumes : (s.body.heal outcome).resumes = s.body.resumes := by
      have hone : refetches [.refetch outcome] = 1 := rfl
      rw [hone] at hspent
      exact Nat.add_right_cancel hspent
    refine iff_of_true (lawful_of_body h hresumes) ?_
    intro read hread
    cases hread
  | poll read =>
    have hphase : s.body.phase = .reading := henabled.2
    rw [hphase, State.next] at hspent
    rw [State.next, hbudget] at hlimit
    have hnone : refetches [.poll read] = 0 := rfl
    have hreading : outstanding .reading = 0 := rfl
    rw [hnone, hreading, Nat.add_zero, Nat.add_zero] at hspent
    by_cases hspends : (s.body.nextChunk read).phase = .healing
    · have hcount : (s.body.nextChunk read).resumes = s.body.resumes + 1 := by
        rw [hspends] at hspent
        exact hspent
      constructor
      · intro hnext read' hread _
        by_cases hfit : policy.Fits s.body.resumes
        · exact hfit
        · have htimed := hnext.timed
          rw [Paced.next, hspends, policy.delayForAttempt_eq_none hfit] at htimed
          cases htimed
      · intro hfits
        obtain ⟨delay, hdelay, hideal⟩ :=
          policy.delayForAttempt_of_fits (hfits read rfl hspends)
        rw [next_of_spending hspends hdelay]
        constructor
        case timed => exact h.timed
        case counted =>
          rw [List.length_append, h.counted, hcount]
          rfl
        case bounded => exact hlimit
        case delays =>
          intro n d hd
          rcases Nat.lt_or_ge n s.waits.length with hn | hn
          · rw [List.getElem?_append_left hn] at hd
            exact h.delays n d hd
          · have hlast : n < (s.waits ++ [delay]).length := (List.getElem?_eq_some_iff.mp hd).1
            rw [List.length_append, List.length_singleton] at hlast
            obtain rfl : n = s.waits.length := by omega
            rw [List.getElem?_concat_length] at hd
            obtain rfl := Option.some.inj hd
            rw [hideal, h.counted]
    · rw [outstanding_eq_zero hspends, Nat.add_zero] at hspent
      rw [next_of_quiet hspends]
      refine iff_of_true (lawful_of_body h hspent) ?_
      intro read' hread hheal
      cases hread
      exact absurd hheal hspends

theorem begin_lawful (policy : RetryPolicy) (first : ByteStream) (url : String) (baseStart : ℕ)
    (finish : Option ℕ) : (begin policy first url baseStart finish).Lawful policy where
  timed := rfl
  counted := rfl
  bounded := Nat.zero_le _
  delays := by
    intro n delay h
    cases h

/-- A long but ordinary budget: a tenth of a second, five seconds at most, 34 retries. -/
def patient : RetryPolicy where
  baseDelay := .fromMillis 100
  maxDelay := .fromMillis 5000
  maxRetries := 34

def stalls : ℕ → Option (Except NetError Unit) := fun _ => some (.error .timeout)

/-- The 34th failure asks for a factor of `2 ^ 32`. -/
theorem patient_unlawful :
    ¬ RetryLaw patient stalls (fun _ => false) 0 (retryLoop patient stalls (fun _ => false) 0) := by
  intro h
  have hfail : ∀ n, Failed stalls n := fun n => ⟨.timeout, rfl, rfl⟩
  have hreach : Reaches patient stalls (fun _ => false) 33 :=
    ⟨by decide, fun n _ => ⟨hfail n, rfl⟩⟩
  have hfit := (retryLaw_iff patient stalls _).mp h 33 (by decide) (by decide) hreach (hfail 33)
  rcases hfit with hzero | ⟨hpow, -⟩
  · exact absurd hzero (by decide)
  · exact absurd hpow (by decide)

/-- Both loops that wait by a policy keep to it exactly while the delays they come to are in range:
the request loop in each of its runs, the resuming body in every state of its runs. -/
theorem retries_lawful_iff (T : Type*) (policy : RetryPolicy) :
    (∀ (op : ℕ → Option (Except NetError T)) (interrupted : ℕ → Bool),
      RetryLaw policy op interrupted 0 (retryLoop policy op interrupted 0) ↔
        DelaysFit policy op interrupted 0) ∧
      ∀ (first : ByteStream) (url : String) (baseStart : ℕ) (finish : Option ℕ)
        (as : List Action),
        (machine policy).ValidTrace (begin policy first url baseStart finish) as →
          ((machine policy).Throughout (Paced.Lawful policy)
              (begin policy first url baseStart finish) as ↔
            (machine policy).Along (Paced.RetryFits policy)
              (begin policy first url baseStart finish) as) := by
  constructor
  · exact retryLaw_iff policy
  · intro first url baseStart finish as hvalid
    exact throughout_iff_along (J := fun s => s.body.maxRetries = policy.maxRetries.toNat)
      (fun s a hbudget henabled => next_budget a henabled hbudget)
      (fun s a hbudget hlawful henabled => lawful_next_iff a hbudget hlawful henabled)
      rfl (begin_lawful policy first url baseStart finish) hvalid

/-- A body that stalls twice waits nothing before its first retry and the base delay before its
second. -/
def stalledTwice : List Action :=
  [.poll .stalled, .refetch (.responded fullResponse), .poll .stalled,
    .refetch (.failed .timeout)]

theorem retries_lawful_stalled :
    (machine patient).Throughout (Paced.Lawful patient)
        (begin patient ⟨fullResponse.headers, false⟩ "u" 0 none) stalledTwice ∧
      ((machine patient).runTrace (begin patient ⟨fullResponse.headers, false⟩ "u" 0 none)
        stalledTwice).waits.map Duration.nanos = [0, 100 * 10 ^ 6] := by
  refine ⟨((retries_lawful_iff Unit patient).2 ⟨fullResponse.headers, false⟩ "u" 0 none
    stalledTwice ?_).mpr ?_, rfl⟩
  · exact ⟨⟨rfl, rfl⟩, ⟨rfl, rfl⟩, ⟨rfl, rfl⟩, ⟨rfl, rfl⟩, trivial⟩
  · refine ⟨?_, ?_, ?_, ?_, trivial⟩
    · exact fun _ _ _ => Or.inl rfl
    · rintro read ⟨⟩
    · exact fun _ _ _ => Or.inr ⟨by decide, by decide⟩
    · rintro read ⟨⟩

end ResumeDelays

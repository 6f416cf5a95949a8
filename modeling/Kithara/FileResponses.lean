import Kithara.CheckedArithmetic
import Kithara.RangeResponses

/-! What a file session reads off the headers of a response, and the responses of an honest server.
A response that reaches the session has passed the checks of the transport. -/
namespace FileResponses

open CheckedArithmetic RangeResponses UnicodeText

structure ResponseContract where
  total : Option ℕ
  invalid : Bool
  deriving DecidableEq

def parseContentRange (value : Text) : Option (ℕ × ℕ × Option ℕ) := do
  let (unit, value) ← splitOnce value ' '
  if unit.map Char.toLower ≠ "bytes".toList then none
  let (range, total) ← splitOnce value '/'
  let (start, finish) ← splitOnce range '-'
  let start ← parseU64 start
  let finish ← parseU64 finish
  if finish < start then none
  let total ← if total = ['*'] then some none else (parseU64 total).map some
  some (start, finish, total)

def rangeRequested (resumeFrom : ℕ) (endExclusive : Option ℕ) : Bool :=
  endExclusive.isSome || 0 < resumeFrom

/-- A named interval is held against the request, the total and the content length. -/
def intervalInvalid (contentLength : Option ℕ) (resumeFrom : ℕ) (endExclusive : Option ℕ)
    (responseStart responseEnd : ℕ) (total : Option ℕ) : Bool :=
  let span := (checkedSub responseEnd responseStart).bind (checkedAdd 64 · 1)
  responseStart ≠ resumeFrom || total.all (· ≤ responseEnd) || endExclusive.any (· ≤ responseEnd) ||
    (contentLength.isNone || span.isNone || contentLength ≠ span)

def responseContract (headers : Headers) (resumeFrom : ℕ) (endExclusive : Option ℕ) :
    ResponseContract :=
  match headers.get contentRangeKey with
  | some value =>
    match parseContentRange value with
    | none => { invalid := true, total := none }
    | some (responseStart, responseEnd, total) =>
      let invalid := intervalInvalid (contentLength headers) resumeFrom endExclusive responseStart
        responseEnd total
      { invalid, total := if invalid then none else total }
  | none =>
    if rangeRequested resumeFrom endExclusive then
      let fullResponse := resumeFrom = 0 && (contentLength headers).isSome
      { invalid := !fullResponse, total := (contentLength headers).filter fun _ => fullResponse }
    else
      { invalid := false, total := (contentLength headers).bind (checkedAdd 64 resumeFrom) }

def fetchRange (start : ℕ) (endExclusive : Option ℕ) : Option RangeSpec :=
  match endExclusive with
  | none => if 0 < start then some ⟨start, none⟩ else none
  | some finish => ((checkedSub finish 1).filter (start ≤ ·)).map fun last => ⟨start, some last⟩

/-- A response, with the stretch of the resource that its body is. -/
structure Served where
  response : Response
  first : ℕ
  finish : ℕ

def Served.accepted (a : Served) (url : String) (range : Option RangeSpec) : Bool :=
  (rawBody url range range.isSome a.response).toBool

/-- A 206 is the interval that its content range names, any other response is the whole resource;
lengths and totals, where they are given, are true. -/
def Served.honest (a : Served) (resource : List UInt8) : Bool :=
  a.first ≤ a.finish && a.finish ≤ resource.length &&
    if a.response.status = 206 then
      match (a.response.headers.get contentRangeKey).bind parseContentRange with
      | none => true
      | some (start, last, total) =>
        a.first = start && a.finish = last + 1 && total.all (· = resource.length) &&
          (contentLength a.response.headers).all (· = last + 1 - start)
    else
      a.first = 0 && a.finish = resource.length &&
        (contentLength a.response.headers).all (· = resource.length)

variable {resource : List UInt8} {a : Served} {url : String} {start : ℕ} {endExclusive : Option ℕ}

theorem not_rangeRequested (h : rangeRequested start endExclusive = false) :
    start = 0 ∧ endExclusive = none := by
  rw [rangeRequested, Bool.or_eq_false_iff, decide_eq_false_iff_not] at h
  exact ⟨Nat.eq_zero_of_not_pos h.2, Option.not_isSome_iff_eq_none.mp (Bool.eq_false_iff.mp h.1)⟩

theorem accepted_status {range : Option RangeSpec} (h : a.accepted url range = true) :
    acceptsResponseStatus a.response.status range.isSome = true ∧
      validateRangeResponse a.response.status range a.response.headers url = .ok () := by
  rw [Served.accepted, rawBody] at h
  split at h
  · rename_i hstatus
    refine ⟨hstatus, ?_⟩
    split at h
    · cases h
    · assumption
  · cases h

theorem accepted_full {range : Option RangeSpec} (h : a.accepted url range = true)
    (hnone : a.response.headers.get contentRangeKey = none) : a.response.status ≠ 206 := by
  intro hpart
  obtain ⟨hstatus, hvalid⟩ := accepted_status h
  cases range with
  | none =>
    rw [hpart] at hstatus
    exact absurd hstatus (by decide)
  | some range =>
    simp [validateRangeResponse, hpart, validatePartialResponse, hnone] at hvalid

theorem accepted_partial {range : Option RangeSpec} (h : a.accepted url range = true) {raw : Text}
    (hraw : a.response.headers.get contentRangeKey = some raw) :
    range.isSome = true ∧ a.response.status = 206 := by
  obtain ⟨-, hvalid⟩ := accepted_status h
  cases range with
  | none => simp [validateRangeResponse, hraw] at hvalid
  | some range =>
    refine ⟨rfl, ?_⟩
    by_contra hother
    by_cases hfull : a.response.status = 200
    · simp [validateRangeResponse, hfull, hraw] at hvalid
    · simp [validateRangeResponse, hfull, hother] at hvalid

theorem honest_bounded (h : a.honest resource = true) :
    a.first ≤ a.finish ∧ a.finish ≤ resource.length := by
  simp only [Served.honest, Bool.and_eq_true, decide_eq_true_eq] at h
  exact h.1

/-- The body starts where it was asked for, a total is the length of the resource, and a request
without a range is answered with all of it. -/
structure Delivers (resource : List UInt8) (start : ℕ) (endExclusive : Option ℕ) (a : Served) :
    Prop where
  first : a.first = start
  total : ∀ n ∈ (responseContract a.response.headers start endExclusive).total, n = resource.length
  whole : rangeRequested start endExclusive = false → a.finish = resource.length

theorem valid_delivers (honest : a.honest resource = true)
    (accepted : a.accepted url (fetchRange start endExclusive) = true)
    (valid : (responseContract a.response.headers start endExclusive).invalid = false) :
    Delivers resource start endExclusive a := by
  simp only [Served.honest, Bool.and_eq_true, decide_eq_true_eq] at honest
  obtain ⟨-, hbody⟩ := honest
  cases hraw : a.response.headers.get contentRangeKey with
  | none =>
    rw [if_neg (accepted_full accepted hraw)] at hbody
    simp only [Bool.and_eq_true, decide_eq_true_eq] at hbody
    obtain ⟨⟨hfirst, hfinish⟩, hlength⟩ := hbody
    have hlength : ∀ n ∈ contentLength a.response.headers, n = resource.length := by
      simpa [Option.all_eq_true] using hlength
    cases hrange : rangeRequested start endExclusive with
    | true =>
      simp only [responseContract, hraw, hrange, if_true, Bool.not_eq_false', Bool.and_eq_true,
        decide_eq_true_eq] at valid
      refine ⟨hfirst.trans valid.1.symm, ?_, fun _ => hfinish⟩
      intro n hn
      simp only [responseContract, hraw, hrange, if_true] at hn
      exact hlength n (Option.filter_eq_some_iff.mp hn).1
    | false =>
      obtain ⟨rfl, rfl⟩ := not_rangeRequested hrange
      refine ⟨hfirst, ?_, fun _ => hfinish⟩
      intro n hn
      simp only [responseContract, hraw, hrange, Bool.false_eq_true, if_false] at hn
      obtain ⟨length, hmem, hadd⟩ := Option.bind_eq_some_iff.mp hn
      rw [checkedAdd, Nat.zero_add] at hadd
      split at hadd
      · exact (Option.some_inj.mp hadd) ▸ hlength length hmem
      · cases hadd
  | some raw =>
    obtain ⟨hrange, hstatus⟩ := accepted_partial accepted hraw
    rw [if_pos hstatus, hraw, Option.bind_some] at hbody
    cases hparsed : parseContentRange raw with
    | none => simp [responseContract, hraw, hparsed] at valid
    | some parsed =>
      obtain ⟨responseStart, responseEnd, total⟩ := parsed
      simp only [hparsed, Bool.and_eq_true, decide_eq_true_eq] at hbody
      obtain ⟨⟨⟨hfirst, -⟩, htotal⟩, -⟩ := hbody
      simp only [responseContract, hraw, hparsed] at valid
      have hstart : responseStart = start := by
        simp only [intervalInvalid, Bool.or_eq_false_iff, decide_eq_false_iff_not, ne_eq,
          not_not] at valid
        exact valid.1.1.1
      refine ⟨hfirst.trans hstart, ?_, fun hplain => ?_⟩
      · intro n hn
        simp only [responseContract, hraw, hparsed, valid, Bool.false_eq_true, if_false] at hn
        rw [hn] at htotal
        simpa using htotal
      · obtain ⟨rfl, rfl⟩ := not_rangeRequested hplain
        exact absurd hrange (by decide)

end FileResponses

import Kithara.UnicodeText
import Mathlib.Data.Nat.Notation
import Mathlib.Algebra.Group.Nat.Defs

/-! Range requests and what their responses declare: the headers a body is checked by before any
of it is read. -/
namespace RangeResponses

open UnicodeText

inductive NetError where
  | status (code : ℕ) (url : String) (body : Option String)
  | timeout
  | network (detail : String)
  | decode (detail : String)
  | retryExhausted (maxRetries : ℕ) (source : NetError)
  | cancelled
  | invalidContentType (detail : String)
  | protocol (detail : String)
  | noTransport
  | refused (detail : String)

inductive Retryability where
  | transient
  | fatal
  deriving DecidableEq

def httpRequestTimeout : ℕ := 408

def httpServerErrorMin : ℕ := 500

def httpTooManyRequests : ℕ := 429

def NetError.retryability : NetError → Retryability
  | .status code _ _ =>
    if httpServerErrorMin ≤ code ∨ code = httpTooManyRequests ∨ code = httpRequestTimeout then
      .transient
    else .fatal
  | .timeout => .transient
  | .network _ => .transient
  | _ => .fatal

/-- Header fields, the latest first; a name is looked up without regard to case. -/
abbrev Headers := List (Text × Text)

def Headers.get (headers : Headers) (key : Text) : Option Text :=
  (headers.find? fun field => field.1.map Char.toLower = key.map Char.toLower).map Prod.snd

def contentLengthKey : Text := "content-length".toList

def contentRangeKey : Text := "content-range".toList

structure RangeSpec where
  start : ℕ
  finish : Option ℕ

def RangeSpec.display (range : RangeSpec) : String :=
  match range.finish with
  | some last => s!"bytes={range.start}-{last}"
  | none => s!"bytes={range.start}-"

def splitOnce (s : Text) (c : Char) : Option (Text × Text) :=
  if c ∈ s then some (s.takeWhile (· ≠ c), (s.dropWhile (· ≠ c)).tail) else none

def parseU64 (s : Text) : Option ℕ :=
  let digits := if s.head? = some '+' then s.tail else s
  if digits ≠ [] ∧ digits.all Char.isDigit then
    let n := digits.foldl (fun n c => 10 * n + (c.toNat - '0'.toNat)) 0
    if n < 2 ^ 64 then some n else none
  else none

structure ContentRange where
  total : Option ℕ
  finish : ℕ
  start : ℕ
  deriving DecidableEq

def parseContentRange (raw : Text) : Option ContentRange := do
  let (unit, value) ← splitOnce (trim raw) ' '
  if unit.map Char.toLower ≠ "bytes".toList then none
  let (interval, total) ← splitOnce value '/'
  let (start, finish) ← splitOnce interval '-'
  let total := trim total
  let total ← if total = ['*'] then some none else (parseU64 total).map some
  let finish ← parseU64 (trim finish)
  let start ← parseU64 (trim start)
  some { total, finish, start }

def acceptsResponseStatus (status : ℕ) (acceptPartial : Bool) : Bool :=
  200 ≤ status && status < 300 && (acceptPartial || status ≠ 206)

/-- The length of the whole representation, where a response states it. -/
def representationTotal (isPartial : Bool) (headers : Headers) : Option ℕ :=
  if isPartial then
    ((headers.get contentRangeKey).bind parseContentRange).bind ContentRange.total
  else (headers.get contentLengthKey).bind parseU64

def contentLength (headers : Headers) : Option ℕ := (headers.get contentLengthKey).bind parseU64

/-- The error of a partial response: all of them name the range and the resource. -/
def partialError (requested : RangeSpec) (url what : String) : NetError :=
  .decode s!"partial response for range {requested.display} at {url} {what}"

def validatePartialResponse (requested : RangeSpec) (headers : Headers) (url : String) :
    Except NetError Unit :=
  let failed (what : String) : Except NetError Unit := .error (partialError requested url what)
  match headers.get contentRangeKey with
  | none => failed "omitted content-range"
  | some raw =>
    match parseContentRange raw with
    | none => failed s!"had invalid content-range: {String.ofList raw}"
    | some parsed =>
      if ¬ (parsed.start = requested.start ∧ parsed.start ≤ parsed.finish ∧
          (∀ last ∈ requested.finish, parsed.finish ≤ last) ∧
          ∃ total ∈ parsed.total, parsed.finish < total) then
        failed s!"returned content-range {String.ofList raw}"
      else
        let span := parsed.finish - parsed.start + 1
        if 2 ^ 64 ≤ span then failed s!"had overflowing content-range {String.ofList raw}"
        else
          match headers.get contentLengthKey with
          | none => failed s!"omitted content-length for span {span}"
          | some length =>
            match parseU64 length with
            | none => failed s!"had invalid content-length: {String.ofList length}"
            | some length =>
              if length ≠ span then failed s!"declared {length} bytes for span {span}"
              else .ok ()

def validateRangeResponse (status : ℕ) (requested : Option RangeSpec) (headers : Headers)
    (url : String) : Except NetError Unit :=
  match requested with
  | none =>
    match headers.get contentRangeKey with
    | some _ => .error (.decode s!"full response for {url} included content-range")
    | none => .ok ()
  | some requested =>
    if status = 200 then
      match headers.get contentRangeKey with
      | none => .ok ()
      | some _ => .error (.decode
          s!"full response for range {requested.display} at {url} included content-range")
    else if status = 206 then validatePartialResponse requested headers url
    else .error (.decode (s!"range request {requested.display} for {url} returned HTTP {status}; " ++
      "expected 200 or 206"))

/-- A response as far as it has arrived: its status, its headers and the error text that a
refused status would carry. -/
structure Response where
  status : ℕ
  headers : Headers
  errorBody : Option String

/-- A body stream as far as its consumer reads it before the bytes. -/
structure ByteStream where
  headers : Headers
  isPartial : Bool

/-- One request answered: the status and the declared range are checked before the body. -/
def rawBody (url : String) (range : Option RangeSpec) (acceptPartial : Bool)
    (response : Response) : Except NetError ByteStream :=
  if acceptsResponseStatus response.status acceptPartial then
    match validateRangeResponse response.status range response.headers url with
    | .error error => .error error
    | .ok () => .ok { headers := response.headers, isPartial := response.status = 206 }
  else .error (.status response.status url response.errorBody)

variable {url : String} {range : Option RangeSpec} {acceptPartial : Bool} {response : Response}
  {stream : ByteStream}

structure PartialSpan (requested : RangeSpec) (headers : Headers) (total span : ℕ) : Prop where
  known : representationTotal true headers = some total
  length : contentLength headers = some span
  nonempty : 0 < span
  inside : requested.start + span ≤ total
  asked : ∀ last ∈ requested.finish, requested.start + span ≤ last + 1

theorem validatePartialResponse_spec {requested : RangeSpec} {headers : Headers}
    (h : validatePartialResponse requested headers url = .ok ()) :
    ∃ total span, PartialSpan requested headers total span := by
  rw [validatePartialResponse] at h
  cases hraw : headers.get contentRangeKey with
  | none => simp [hraw] at h
  | some raw =>
    cases hparsed : parseContentRange raw with
    | none => simp [hraw, hparsed] at h
    | some parsed =>
      simp only [hraw, hparsed] at h
      split at h
      · cases h
      · rename_i hinterval
        obtain ⟨hstart, hle, hlast, total, htotal, hlt⟩ := Decidable.not_not.mp hinterval
        split at h
        · cases h
        · cases hlength : headers.get contentLengthKey with
          | none => simp [hlength] at h
          | some text =>
            cases hspan : parseU64 text with
            | none => simp [hlength, hspan] at h
            | some span =>
              simp only [hlength, hspan] at h
              split at h
              · cases h
              · rename_i hsame
                have hspan' : span = parsed.finish - parsed.start + 1 := Decidable.not_not.mp hsame
                refine ⟨total, span, ?_, ?_, by omega, by omega, fun last hmem => ?_⟩
                · rw [representationTotal, if_pos rfl, hraw, Option.bind_some, hparsed,
                    Option.bind_some]
                  exact htotal
                · rw [contentLength, hlength, Option.bind_some, hspan]
                · have hend := hlast last hmem
                  omega

theorem rawBody_spec (h : rawBody url range acceptPartial response = .ok stream) :
    stream.headers = response.headers ∧
      (stream.isPartial = true → acceptPartial = true ∧
        ∀ requested, range = some requested →
          ∃ total span, PartialSpan requested stream.headers total span) := by
  rw [rawBody] at h
  split at h
  · rename_i haccept
    cases hvalid : validateRangeResponse response.status range response.headers url with
    | error error => simp [hvalid] at h
    | ok _ =>
      simp only [hvalid] at h
      cases h
      refine ⟨rfl, fun hranged => ?_⟩
      have hstatus : response.status = 206 := of_decide_eq_true hranged
      refine ⟨?_, ?_⟩
      · rw [acceptsResponseStatus, hstatus] at haccept
        simpa using haccept
      · rintro requested rfl
        rw [validateRangeResponse, hstatus] at hvalid
        exact validatePartialResponse_spec hvalid
  · cases h

end RangeResponses

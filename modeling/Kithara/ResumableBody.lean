import Kithara.RangeResponses
import Kithara.TransitionSystem

/-! A body that heals itself: what its consumer polls, and the requests that go on from the bytes
already consumed. The state is the stream's own; `yielded` collects what the consumer was given and
`position` is where in the representation the next byte of the current response stands, as far as
the server is honest. -/
namespace ResumableBody

open RangeResponses TransitionSystem

inductive Poll where
  | chunk (bytes : List UInt8)
  | failed (cause : NetError)
  | ended
  | stalled
  | cancelled

/-- What a request for the rest comes to, its wait included. -/
inductive Refetch where
  | cancelled
  | failed (error : NetError)
  | responded (response : Response)

inductive Action where
  | poll (read : Poll)
  | refetch (outcome : Refetch)

inductive Phase where
  | reading
  | healing
  | finished (terminal : Option NetError)

structure Refetcher where
  url : String
  resumeBase : ℕ
  resumeEnd : Option ℕ

structure State where
  refetch : Refetcher
  maxRetries : ℕ
  expectedLen : Option ℕ
  representationTotal : Option ℕ
  isPartial : Bool
  resumes : ℕ
  consumed : ℕ
  toSkip : ℕ
  phase : Phase
  yielded : List UInt8
  position : ℕ

namespace State

def bodyComplete (s : State) : Bool := s.expectedLen.any (· ≤ s.consumed)

def bodyIncompleteAtEof (s : State) : Bool :=
  0 < s.toSkip || match s.expectedLen with
    | some _ => !s.bodyComplete
    | none => s.isPartial

def finish (s : State) (terminal : Option NetError) : State :=
  { s with phase := .finished terminal }

/-- The first half of a resume: the failure is terminal, or spends one retry and asks again. -/
def resume (s : State) (cause : NetError) : State :=
  if cause.retryability = .fatal then s.finish (some cause)
  else if s.maxRetries ≤ s.resumes then s.finish (some (.retryExhausted s.maxRetries cause))
  else { s with phase := .healing, resumes := s.resumes + 1 }

/-- The bytes of one chunk that are new, no more than the declared length still allows. -/
def accepted (s : State) (bytes : List UInt8) : List UInt8 :=
  let rest := bytes.drop (min s.toSkip bytes.length)
  rest.take (match s.expectedLen with
    | some expected => min (expected - s.consumed) rest.length
    | none => rest.length)

def take (s : State) (bytes : List UInt8) : State :=
  { s with
    toSkip := s.toSkip - min s.toSkip bytes.length
    consumed := s.consumed + (s.accepted bytes).length
    yielded := s.yielded ++ s.accepted bytes
    position := s.position + bytes.length }

def nextChunk (s : State) (read : Poll) : State :=
  if s.bodyComplete then s.finish none
  else
    match read with
    | .chunk bytes => s.take bytes
    | .failed cause => s.resume cause
    | .ended =>
      if s.bodyIncompleteAtEof then
        s.resume (.network "HTTP body ended before representation completion")
      else s.finish none
    | .stalled => s.resume .timeout
    | .cancelled => s.resume .cancelled

def resumeOffset (s : State) : ℕ := s.refetch.resumeBase + s.consumed

def checkTotal (s : State) (skip : ℕ) (resumedTotal : Option ℕ) : Option NetError :=
  if resumedTotal.any (· < skip) then
    some (.decode (s!"resumed response for {s.refetch.url} declared a representation shorter " ++
      s!"than the consumed prefix {skip}"))
  else
    match s.representationTotal with
    | none => none
    | some expected =>
      match resumedTotal with
      | some actual =>
        if expected = actual then none
        else some (.decode (s!"resumed response for {s.refetch.url} changed representation " ++
          s!"total from {expected} to {actual}"))
      | none => some (.decode (s!"resumed response for {s.refetch.url} dropped the known " ++
          s!"representation total {expected}"))

def install (s : State) (stream : ByteStream) (skip : ℕ) (resumedTotal : Option ℕ) : State :=
  { s with
    expectedLen := if s.representationTotal.isNone && s.expectedLen.isNone then resumedTotal
      else s.expectedLen
    representationTotal := if s.representationTotal.isNone then resumedTotal
      else s.representationTotal
    isPartial := stream.isPartial
    toSkip := skip
    phase := .reading
    position := s.resumeOffset - skip }

/-- The second half of a resume: a full response restarts at zero, so what was consumed of it is
skipped. -/
def heal (s : State) : Refetch → State
  | .cancelled => s.finish (some .cancelled)
  | .failed error => s.finish (some error)
  | .responded response =>
    match rawBody s.refetch.url (some ⟨s.resumeOffset, s.refetch.resumeEnd⟩) true response with
    | .error error => s.finish (some error)
    | .ok stream =>
      let skip := if stream.isPartial then 0 else s.resumeOffset
      let resumedTotal := RangeResponses.representationTotal stream.isPartial stream.headers
      match s.checkTotal skip resumedTotal with
      | some error => s.finish (some error)
      | none => s.install stream skip resumedTotal

def Enabled (s : State) : Action → Prop
  | .poll _ => s.phase = .reading
  | .refetch _ => s.phase = .healing

def next (s : State) : Action → State
  | .poll read => s.nextChunk read
  | .refetch outcome => s.heal outcome

end State

def machine : Machine State Action where
  Enabled := State.Enabled
  next := State.next

/-- The stream over the first response to a request. A response that ignored the range is healed
as a request for everything. -/
def wrapResumable (first : ByteStream) (url : String) (baseStart : ℕ) (finish : Option ℕ)
    (maxRetries : ℕ) : State where
  refetch :=
    if first.isPartial then { url, resumeBase := baseStart, resumeEnd := finish }
    else { url, resumeBase := 0, resumeEnd := none }
  maxRetries := maxRetries
  expectedLen := contentLength first.headers
  representationTotal := representationTotal first.isPartial first.headers
  isPartial := first.isPartial
  resumes := 0
  consumed := 0
  toSkip := 0
  phase := .reading
  yielded := []
  position := if first.isPartial then baseStart else 0

def openStream (url : String) (request : Option RangeSpec) (maxRetries : ℕ) (response : Response) :
    Except NetError State :=
  match rawBody url request request.isSome response with
  | .error error => .error error
  | .ok first =>
    match request with
    | none => .ok (wrapResumable first url 0 none maxRetries)
    | some range => .ok (wrapResumable first url range.start range.finish maxRetries)

end ResumableBody

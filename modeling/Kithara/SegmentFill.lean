import Kithara.TransitionSystem

/-! A segment is read into its buffer through a cursor in a shared stream, while the layout of that
stream moves: earlier segments take on their exact sizes, and the segment's own end is corrected.
The reader re-resolves its range between reads. Everything outside the reader answers one turn of
its loop at a time, and may change between any two answers. -/
namespace SegmentFill

open TransitionSystem

/-- A segment's place in the stream; it does not end before it starts. -/
structure ByteRange where
  start : ℕ
  stop : ℕ
  ordered : start ≤ stop
  deriving DecidableEq

def ByteRange.total (range : ByteRange) : ℕ := range.stop - range.start

inductive NotReadyCause where
  | operationPending
  | waitBudgetExhausted
  | waitInterrupted
  | sourcePending
  deriving DecidableEq

inductive PendingReason where
  | notReady (cause : NotReadyCause)
  | variantChange
  | sessionRetired
  | retry
  deriving DecidableEq

inductive Payload where
  | reason (reason : PendingReason)
  | streamPending (reason : PendingReason)
  | variantChange
  | other
  deriving DecidableEq

structure IoError where
  payload : Option Payload
  interrupted : Bool
  deriving DecidableEq

inductive DecodeError where
  | io (source : IoError)
  | interrupted
  | invalidData (detail : String)
  | pool
  deriving DecidableEq

def decodeError (error : IoError) : DecodeError :=
  if error.interrupted then .interrupted else .io error

inductive FillStatus where
  | ready
  | pending (reason : PendingReason)
  deriving DecidableEq

def seekInput : Except IoError Unit → Except DecodeError FillStatus
  | .ok () => .ok .ready
  | .error error =>
    match error.payload with
    | some (.reason reason) => .ok (.pending reason)
    | some (.streamPending reason) => .ok (.pending reason)
    | some .variantChange => .ok (.pending .variantChange)
    | _ => .error (decodeError error)

inductive InputReadOutcome where
  | bytes (count : ℕ)
  | pending (reason : PendingReason)
  | eof
  deriving DecidableEq

/-- A read into a slice of the given length gives at most that many bytes. -/
def tryRead (length : ℕ) : Except IoError ℕ → Except DecodeError InputReadOutcome
  | .ok count => .ok (if min count length = 0 then .eof else .bytes (min count length))
  | .error error =>
    match error.payload with
    | some (.reason reason) => .ok (.pending reason)
    | some (.streamPending reason) => .ok (.pending reason)
    | some .variantChange => .ok (.pending .variantChange)
    | _ => if error.interrupted then .ok (.pending (.notReady .sourcePending))
      else .error (.io error)

/-- One moment of everything outside the reader: the layout, the bytes at the stream's addresses,
and the largest buffer the pool would grant. -/
structure Moment where
  initSegmentRange : ByteRange
  segmentAtIndex : UInt32 → Option ByteRange
  byteAt : ℕ → UInt8
  room : ℕ

inductive LiveRange where
  | init
  | segment (index : UInt32)

def LiveRange.resolve (live : LiveRange) (moment : Moment) : Option ByteRange :=
  match live with
  | .init => if moment.initSegmentRange.total = 0 then none else some moment.initSegmentRange
  | .segment index => moment.segmentAtIndex index

def Moment.Stable (live : LiveRange) (segment : ℕ → UInt8) (moment : Moment) : Prop :=
  ∀ range, live.resolve moment = some range →
    ∀ i < range.total, moment.byteAt (range.start + i) = segment i

/-- The answers to one turn of the loop, and the moments at which they are given. -/
structure Turn where
  first : Moment
  seek : Except IoError Unit
  second : Moment
  reseek : Except IoError Unit
  reading : Moment
  read : Except IoError ℕ
  last : Moment

def Turn.looks (turn : Turn) : List Moment := [turn.first, turn.second, turn.last]

structure SegmentReadState where
  range : ByteRange
  buffer : List UInt8
  filled : ℕ

namespace SegmentReadState

def new (range : ByteRange) (buffer : List UInt8) : SegmentReadState :=
  { range, buffer, filled := 0 }

def total (state : SegmentReadState) : ℕ := state.range.total

def resizeTo (state : SegmentReadState) (room total : ℕ) : Option SegmentReadState :=
  if state.buffer.length < total ∧ room < total then none
  else some { state with
    buffer := state.buffer.take total ++ List.replicate (total - state.buffer.length) 0 }

end SegmentReadState

/-- What a call comes back with, and the moment its range was last re-resolved at. -/
structure Return where
  result : Except DecodeError FillStatus
  seen : Moment
  state : SegmentReadState

/-- The buffer is sized for the range; a segment that is filled already ends the call. -/
def syncBuffer (moment : Moment) (state : SegmentReadState) : Except Return SegmentReadState :=
  match state.resizeTo moment.room state.total with
  | none => .error { result := .error .pool, seen := moment, state }
  | some state =>
    if state.total ≤ state.filled then .error { result := .ok .ready, seen := moment, state }
    else .ok state

def seekTo (moment : Moment) (answer : Except IoError Unit) (state : SegmentReadState) :
    Except Return ℕ :=
  match seekInput answer with
  | .error error => .error { result := .error error, seen := moment, state }
  | .ok (.pending reason) => .error { result := .ok (.pending reason), seen := moment, state }
  | .ok .ready => .ok (state.range.start + state.filled)

/-- The range as the layout has it now, and whether it moved. Another start invalidates what has
been read; another end only cuts it. -/
def refreshRange (live : LiveRange) (moment : Moment) (state : SegmentReadState) :
    SegmentReadState × Bool :=
  match live.resolve moment with
  | none => (state, false)
  | some range =>
    if range = state.range then (state, false)
    else if range.start = state.range.start then
      ({ state with range, filled := min state.filled range.total }, true)
    else ({ state with range, filled := 0 }, true)

/-- The cursor once more, when the range moved while it was being placed. -/
def correct (live : LiveRange) (turn : Turn) (position : ℕ) (state : SegmentReadState) :
    Except Return (ℕ × SegmentReadState) := do
  let (state, moved) := refreshRange live turn.second state
  if moved then
    let state ← syncBuffer turn.second state
    let corrected ← seekTo turn.second turn.reseek state
    return (corrected, state)
  else return (position, state)

/-- A turn up to its read: the cursor's address, and the state the read fills. -/
def approach (live : LiveRange) (turn : Turn) (state : SegmentReadState) :
    Except Return (ℕ × SegmentReadState) := do
  let state ← syncBuffer turn.first (refreshRange live turn.first state).1
  let position ← seekTo turn.first turn.seek state
  correct live turn position state

def finishSegmentBuffer (live : LiveRange) (turn : Turn) (state : SegmentReadState) :
    Except Return SegmentReadState :=
  if state.filled = state.total then
    .error { result := .ok .ready, seen := turn.second, state }
  else do
    let (state, moved) := refreshRange live turn.last state
    let state ← if moved then syncBuffer turn.last state else pure state
    .error { result := .error (.invalidData "unexpected EOF before segment buffer filled")
             seen := turn.last, state }

/-- The buffer with the bytes at the cursor's address behind what was filled before. -/
def SegmentReadState.accept (state : SegmentReadState) (reading : Moment) (position count : ℕ) :
    SegmentReadState :=
  { state with
    buffer := state.buffer.take state.filled ++
      (List.range count).map (fun i => reading.byteAt (position + i)) ++
      state.buffer.drop (state.filled + count)
    filled := state.filled + count }

def fillTurn (live : LiveRange) (turn : Turn) (state : SegmentReadState) :
    Except Return SegmentReadState := do
  let (position, state) ← approach live turn state
  match tryRead (state.buffer.length - state.filled) turn.read with
  | .error error => .error { result := .error error, seen := turn.second, state }
  | .ok (.bytes count) => return state.accept turn.reading position count
  | .ok (.pending reason) => .error { result := .ok (.pending reason), seen := turn.second, state }
  | .ok .eof => finishSegmentBuffer live turn state

/-- A call, over the turns the outside answers: its return, if it came to one, the state it
leaves, and the turns it did not use. -/
def fillSegmentBuffer (live : LiveRange) :
    List Turn → SegmentReadState → Option Return × SegmentReadState × List Turn
  | [], state => (none, state, [])
  | turn :: turns, state =>
    match fillTurn live turn state with
    | .ok state => fillSegmentBuffer live turns state
    | .error answer => (some answer, answer.state, turns)

/-- The state after a number of calls on one read state, and the turns left to the next. -/
def fillCalls (live : LiveRange) :
    ℕ → List Turn → SegmentReadState → SegmentReadState × List Turn
  | 0, turns, state => (state, turns)
  | calls + 1, turns, state =>
    let (_, state, turns) := fillSegmentBuffer live turns state
    fillCalls live calls turns state

def afterTurn (live : LiveRange) (state : SegmentReadState) (turn : Turn) : SegmentReadState :=
  match fillTurn live turn state with
  | .ok state => state
  | .error answer => answer.state

def reader (live : LiveRange) : Machine SegmentReadState Turn where
  Enabled _ _ := True
  next := afterTurn live

def readsAt (live : LiveRange) (state : SegmentReadState) (turn : Turn) : List ℕ :=
  match approach live turn state with
  | .ok (position, _) => [position]
  | .error _ => []

/-- A state reached by re-resolving the range and sizing the buffer, and by nothing else. -/
inductive Settled (live : LiveRange) (looks : List Moment) (state : SegmentReadState) :
    SegmentReadState → Prop
  | refl : Settled live looks state state
  | refresh {settled : SegmentReadState} {moment : Moment} :
      Settled live looks state settled → moment ∈ looks →
      Settled live looks state (refreshRange live moment settled).1
  | resize {settled resized : SegmentReadState} {room : ℕ} :
      Settled live looks state settled → settled.resizeTo room settled.total = some resized →
      Settled live looks state resized

structure SegmentReadState.Bounded (state : SegmentReadState) : Prop where
  filled_le_length : state.filled ≤ state.buffer.length
  filled_le_total : state.filled ≤ state.total

def bytes (segment : ℕ → UInt8) (count : ℕ) : List UInt8 := (List.range count).map segment

def SegmentReadState.Kept (segment : ℕ → UInt8) (state : SegmentReadState) : Prop :=
  state.buffer.take state.filled = bytes segment state.filled

variable {live : LiveRange} {looks : List Moment} {moment : Moment} {turn : Turn}
  {state settled resized : SegmentReadState} {room position count : ℕ} {segment : ℕ → UInt8}

theorem refreshRange_range :
    (refreshRange live moment state).1.range = (live.resolve moment).getD state.range := by
  rw [refreshRange]
  cases live.resolve moment with
  | none => rfl
  | some range =>
    by_cases hsame : range = state.range
    · simp [hsame]
    · by_cases hstart : range.start = state.range.start
      · simp only [if_neg hsame, if_pos hstart, Option.getD_some]
      · simp only [if_neg hsame, if_neg hstart, Option.getD_some]

theorem refreshRange_unmoved (h : (refreshRange live moment state).2 = false) :
    (refreshRange live moment state).1 = state := by
  rw [refreshRange] at h ⊢
  cases hr : live.resolve moment with
  | none => rfl
  | some range =>
    rw [hr] at h
    by_cases hsame : range = state.range
    · simp only [if_pos hsame]
    · by_cases hstart : range.start = state.range.start
      · simp only [if_neg hsame, if_pos hstart] at h
        cases h
      · simp only [if_neg hsame, if_neg hstart] at h
        cases h

theorem refreshRange_cases (state : SegmentReadState) (live : LiveRange) (moment : Moment) :
    (refreshRange live moment state).1 = state ∨
      ∃ range, live.resolve moment = some range ∧
        (refreshRange live moment state).1 = { state with
          range
          filled := if range.start = state.range.start then min state.filled range.total
            else 0 } := by
  rw [refreshRange]
  cases live.resolve moment with
  | none => exact .inl rfl
  | some range =>
    by_cases hsame : range = state.range
    · exact .inl (by simp only [if_pos hsame])
    · by_cases hstart : range.start = state.range.start
      · exact .inr ⟨range, rfl, by simp only [if_neg hsame, if_pos hstart]⟩
      · exact .inr ⟨range, rfl, by simp only [if_neg hsame, if_neg hstart]⟩

theorem refreshRange_buffer : (refreshRange live moment state).1.buffer = state.buffer := by
  rcases refreshRange_cases state live moment with h | ⟨range, -, h⟩
  · rw [h]
  · rw [h]

theorem take_bytes {m n : ℕ} (hm : m ≤ n) : (bytes segment n).take m = bytes segment m := by
  rw [bytes, ← List.map_take, List.take_range, Nat.min_eq_left hm, bytes]

theorem kept_of_take {n : ℕ} (h : state.buffer.take n = bytes segment n)
    (hm : state.filled ≤ n) : state.Kept segment := by
  have := congrArg (List.take state.filled) h
  rwa [List.take_take, Nat.min_eq_left hm, take_bytes hm] at this

structure Resized (state resized : SegmentReadState) : Prop where
  range_eq : resized.range = state.range
  filled_eq : resized.filled = state.filled
  length_eq : resized.buffer.length = state.total
  take_eq : ∀ n ≤ state.filled, resized.buffer.take n = state.buffer.take n

theorem resizeTo_resized (hb : state.Bounded)
    (h : state.resizeTo room state.total = some resized) : Resized state resized := by
  rw [SegmentReadState.resizeTo] at h
  split at h
  · cases h
  · cases h
    constructor
    case range_eq => rfl
    case filled_eq => rfl
    case length_eq =>
      rw [List.length_append, List.length_take, List.length_replicate]
      omega
    case take_eq =>
      intro n hn
      have hlength := hb.filled_le_length
      have htotal := hb.filled_le_total
      rw [List.take_append_of_le_length (by rw [List.length_take]; omega), List.take_take,
        Nat.min_eq_left (by omega)]

theorem refreshRange_bounded (hb : state.Bounded) : (refreshRange live moment state).1.Bounded := by
  have hlength := hb.filled_le_length
  rcases refreshRange_cases state live moment with h | ⟨range, -, h⟩
  · rwa [h]
  · rw [h]
    split
    · exact ⟨by dsimp only; omega, Nat.min_le_right _ _⟩
    · exact ⟨Nat.zero_le _, Nat.zero_le _⟩

theorem refreshRange_filled (live : LiveRange) (moment : Moment) (hb : state.Bounded) :
    (refreshRange live moment state).1.filled = 0 ∨
      ((live.resolve moment).getD state.range).start = state.range.start ∧
        (refreshRange live moment state).1.filled ≤
          min state.filled ((live.resolve moment).getD state.range).total := by
  have hbounded : (refreshRange live moment state).1.Bounded := refreshRange_bounded hb
  have htotal := hbounded.filled_le_total
  rw [SegmentReadState.total, refreshRange_range] at htotal
  have hrange : (refreshRange live moment state).1.range =
    (live.resolve moment).getD state.range := refreshRange_range
  rcases refreshRange_cases state live moment with h | ⟨range, hr, h⟩
  · rw [h] at hrange htotal ⊢
    exact .inr ⟨by rw [← hrange], Nat.le_min.mpr ⟨Nat.le_refl _, htotal⟩⟩
  · by_cases hstart : range.start = state.range.start
    · refine .inr ⟨by rw [hr]; exact hstart, Nat.le_min.mpr ⟨?_, htotal⟩⟩
      rw [h]
      simp only [if_pos hstart]
      exact Nat.min_le_left _ _
    · left
      rw [h]
      exact if_neg hstart

theorem refreshRange_kept (hk : state.Kept segment) :
    (refreshRange live moment state).1.Kept segment := by
  rcases refreshRange_cases state live moment with h | ⟨range, -, h⟩
  · rwa [h]
  · rw [h]
    split
    · exact kept_of_take hk (Nat.min_le_left _ _)
    · exact kept_of_take hk (Nat.zero_le _)

theorem Settled.bounded (h : Settled live looks state settled) (hb : state.Bounded) :
    settled.Bounded := by
  induction h with
  | refl => exact hb
  | refresh _ _ ih => exact refreshRange_bounded ih
  | resize _ hr ih =>
    obtain ⟨hrange, hfilled, hlength, -⟩ := resizeTo_resized ih hr
    constructor
    · rw [hfilled, hlength]
      exact ih.filled_le_total
    · rw [hfilled, SegmentReadState.total, hrange]
      exact ih.filled_le_total

theorem Settled.kept (h : Settled live looks state settled) (hb : state.Bounded)
    (hk : state.Kept segment) : settled.Kept segment := by
  induction h with
  | refl => exact hk
  | refresh _ _ ih => exact refreshRange_kept ih
  | resize hs hr ih =>
    obtain ⟨-, hfilled, -, htake⟩ := resizeTo_resized (hs.bounded hb) hr
    rw [SegmentReadState.Kept, hfilled, htake _ (Nat.le_refl _)]
    exact ih

/-- A return as ready has the range of its last re-resolution, filled. -/
structure Return.Complete (live : LiveRange) (answer : Return) : Prop where
  length_eq : answer.state.buffer.length = answer.state.total
  filled : answer.state.total ≤ answer.state.filled
  current : ∀ range, live.resolve answer.seen = some range → answer.state.range = range

/-- How a turn returns: from a settled state, and as ready only when it is filled. -/
structure Return.Settles (live : LiveRange) (looks : List Moment) (state : SegmentReadState)
    (answer : Return) : Prop where
  seen : answer.seen ∈ looks
  settled : Settled live looks state answer.state
  complete : answer.result = .ok .ready → answer.Complete live

theorem refreshRange_current :
    ∀ range, live.resolve moment = some range →
      (refreshRange live moment state).1.range = range := by
  intro range hr
  rw [refreshRange_range, hr, Option.getD_some]

theorem Settled.trans {last : SegmentReadState} (h : Settled live looks state settled)
    (hlast : Settled live looks settled last) : Settled live looks state last := by
  induction hlast with
  | refl => exact h
  | refresh _ hm ih => exact .refresh ih hm
  | resize _ hr ih => exact .resize ih hr

/-- A computation ends with a value of a kind, or returns a settled answer. -/
def Proceeds {α : Type} (live : LiveRange) (looks : List Moment) (state : SegmentReadState)
    (result : Except Return α) (good : α → Prop) : Prop :=
  (∃ a, result = .ok a ∧ good a) ∨
    ∃ answer, result = .error answer ∧ answer.Settles live looks state

theorem Proceeds.bind {α β : Type} {x : Except Return α} {f : α → Except Return β}
    {good : α → Prop} {kind : β → Prop} (h : Proceeds live looks state x good)
    (hf : ∀ a, x = .ok a → good a → Proceeds live looks state (f a) kind) :
    Proceeds live looks state (x >>= f) kind := by
  rcases h with ⟨a, rfl, ha⟩ | ⟨answer, rfl, hanswer⟩
  · exact hf a rfl ha
  · exact .inr ⟨answer, rfl, hanswer⟩

theorem Proceeds.after {α : Type} {x : Except Return α} {good : α → Prop}
    (hs : Settled live looks state settled) (h : Proceeds live looks settled x good) :
    Proceeds live looks state x good := by
  rcases h with h | ⟨answer, hx, hanswer⟩
  · exact .inl h
  · exact .inr ⟨answer, hx, hanswer.seen, hs.trans hanswer.settled, hanswer.complete⟩

structure Sized (live : LiveRange) (looks : List Moment) (state sized : SegmentReadState) :
    Prop where
  settled : Settled live looks state sized
  length_eq : sized.buffer.length = sized.total
  unfilled : sized.filled < sized.total

theorem syncBuffer_proceeds (hb : state.Bounded) (hm : moment ∈ looks)
    (hcurrent : ∀ range, live.resolve moment = some range → state.range = range) :
    Proceeds live looks state (syncBuffer moment state) (Sized live looks state) := by
  rw [syncBuffer]
  cases hsized : state.resizeTo moment.room state.total with
  | none => exact .inr ⟨_, rfl, hm, .refl, fun hready => by cases hready⟩
  | some sized =>
    have hresized := resizeTo_resized hb hsized
    have hlength : sized.buffer.length = sized.total := by
      rw [hresized.length_eq, SegmentReadState.total, SegmentReadState.total, hresized.range_eq]
    dsimp only
    split
    · rename_i hfilled
      refine .inr ⟨_, rfl, hm, .resize .refl hsized, fun _ => ⟨hlength, hfilled, ?_⟩⟩
      intro range hr
      exact hresized.range_eq.trans (hcurrent range hr)
    · exact .inl ⟨sized, rfl, .resize .refl hsized, hlength, by omega⟩

theorem seekTo_proceeds (hm : moment ∈ looks) (sought : Except IoError Unit) :
    Proceeds live looks state (seekTo moment sought state)
      (· = state.range.start + state.filled) := by
  rw [seekTo]
  cases seekInput sought with
  | error error => exact .inr ⟨_, rfl, hm, .refl, fun hready => by cases hready⟩
  | ok status =>
    cases status with
    | ready => exact .inl ⟨_, rfl, rfl⟩
    | pending reason => exact .inr ⟨_, rfl, hm, .refl, fun hready => by cases hready⟩

structure Placed (live : LiveRange) (looks : List Moment) (state : SegmentReadState)
    (placed : ℕ × SegmentReadState) : Prop extends Sized live looks state placed.2 where
  position_eq : placed.1 = placed.2.range.start + placed.2.filled

theorem correct_proceeds (hs : Sized live turn.looks state state) (hb : state.Bounded)
    (hposition : position = state.range.start + state.filled) :
    Proceeds live turn.looks state (correct live turn position state)
      (Placed live turn.looks state) := by
  have hsecond : turn.second ∈ turn.looks := by simp [Turn.looks]
  have hrefresh : Settled live turn.looks state (refreshRange live turn.second state).1 :=
    .refresh .refl hsecond
  rw [correct]
  cases hmoved : (refreshRange live turn.second state).2 with
  | false =>
    have hsame := refreshRange_unmoved hmoved
    simp only [hmoved, hsame]
    exact .inl ⟨_, rfl, hs, hposition⟩
  | true =>
    simp only [hmoved, if_true]
    refine Proceeds.bind (Proceeds.after hrefresh
      (syncBuffer_proceeds (refreshRange_bounded hb) hsecond refreshRange_current)) ?_
    intro sized _ hsized
    have hsettled := hrefresh.trans hsized.settled
    refine Proceeds.bind (Proceeds.after hsettled (seekTo_proceeds hsecond turn.reseek)) ?_
    intro corrected _ hcorrected
    exact .inl ⟨_, rfl, ⟨hsettled, hsized.length_eq, hsized.unfilled⟩, hcorrected⟩

theorem approach_proceeds (live : LiveRange) (turn : Turn) (hb : state.Bounded) :
    Proceeds live turn.looks (refreshRange live turn.first state).1 (approach live turn state)
      (Placed live turn.looks (refreshRange live turn.first state).1) := by
  have hb1 : (refreshRange live turn.first state).1.Bounded := refreshRange_bounded hb
  have hfirst : turn.first ∈ turn.looks := by simp [Turn.looks]
  rw [approach]
  refine Proceeds.bind (syncBuffer_proceeds hb1 hfirst refreshRange_current) ?_
  intro sized _ hsized
  refine Proceeds.bind (Proceeds.after hsized.settled (seekTo_proceeds hfirst turn.seek)) ?_
  intro position _ hposition
  have hself : Sized live turn.looks sized sized := ⟨.refl, hsized.length_eq, hsized.unfilled⟩
  refine Proceeds.after hsized.settled ?_
  rcases correct_proceeds hself (hsized.settled.bounded hb1) hposition with
    ⟨placed, hplaced, ⟨hsettled, hlength, hunfilled⟩, hat⟩ | hanswer
  · exact .inl ⟨placed, hplaced, ⟨hsized.settled.trans hsettled, hlength, hunfilled⟩, hat⟩
  · exact .inr hanswer

theorem finishSegmentBuffer_proceeds (hs : Sized live turn.looks state state) (hb : state.Bounded) :
    Proceeds live turn.looks state (finishSegmentBuffer live turn state) fun _ => False := by
  have hlast : turn.last ∈ turn.looks := by simp [Turn.looks]
  have hrefresh : Settled live turn.looks state (refreshRange live turn.last state).1 :=
    .refresh .refl hlast
  rw [finishSegmentBuffer, if_neg (Nat.ne_of_lt hs.unfilled)]
  dsimp only
  cases (refreshRange live turn.last state).2 with
  | false => exact .inr ⟨_, rfl, hlast, hrefresh, fun hready => by cases hready⟩
  | true =>
    refine Proceeds.bind (Proceeds.after hrefresh
      (syncBuffer_proceeds (refreshRange_bounded hb) hlast refreshRange_current)) ?_
    intro sized _ hsized
    exact .inr ⟨_, rfl, hlast, hrefresh.trans hsized.settled, fun hready => by cases hready⟩

theorem tryRead_bytes {length : ℕ} {read : Except IoError ℕ}
    (h : tryRead length read = .ok (.bytes count)) : 0 < count ∧ count ≤ length := by
  cases read with
  | ok asked =>
    simp only [tryRead] at h
    split at h
    · cases h
    · cases h
      omega
  | error error =>
    simp only [tryRead] at h
    split at h
    · cases h
    · cases h
    · cases h
    · split at h
      · cases h
      · cases h

structure Accepted (live : LiveRange) (turn : Turn) (state after : SegmentReadState)
    (placed : ℕ × SegmentReadState) (count : ℕ) : Prop where
  approached : approach live turn state = .ok placed
  at_read : Placed live turn.looks (refreshRange live turn.first state).1 placed
  read : tryRead (placed.2.buffer.length - placed.2.filled) turn.read = .ok (.bytes count)
  after_eq : after = placed.2.accept turn.reading placed.1 count

theorem fillTurn_proceeds (live : LiveRange) (turn : Turn) (hb : state.Bounded) :
    Proceeds live turn.looks (refreshRange live turn.first state).1 (fillTurn live turn state)
      fun after => ∃ placed count, Accepted live turn state after placed count := by
  have hsecond : turn.second ∈ turn.looks := by simp [Turn.looks]
  rw [fillTurn]
  refine Proceeds.bind (approach_proceeds live turn hb) ?_
  rintro ⟨position, state'⟩ hplaced hat
  dsimp only at hat ⊢
  cases hread : tryRead (state'.buffer.length - state'.filled) turn.read with
  | error error => exact .inr ⟨_, rfl, hsecond, hat.settled, fun hready => by cases hready⟩
  | ok outcome =>
    cases outcome with
    | bytes count => exact .inl ⟨_, rfl, (position, state'), count, hplaced, hat, hread, rfl⟩
    | pending reason => exact .inr ⟨_, rfl, hsecond, hat.settled, fun hready => by cases hready⟩
    | eof =>
      have hb' := hat.settled.bounded (refreshRange_bounded hb)
      rcases Proceeds.after hat.settled
        (finishSegmentBuffer_proceeds ⟨.refl, hat.length_eq, hat.unfilled⟩ hb') with
        ⟨_, _, hfalse⟩ | hanswer
      · exact hfalse.elim
      · exact .inr hanswer

theorem Accepted.count_le {after : SegmentReadState} {placed : ℕ × SegmentReadState}
    (h : Accepted live turn state after placed count) :
    placed.2.filled + count ≤ placed.2.buffer.length := by
  have hcount := (tryRead_bytes h.read).2
  have hlength := h.at_read.length_eq
  have hunfilled := h.at_read.unfilled
  omega

theorem length_accept {reading : Moment} (h : state.filled + count ≤ state.buffer.length) :
    (state.accept reading position count).buffer.length = state.buffer.length := by
  simp only [SegmentReadState.accept, List.length_append, List.length_take, List.length_map,
    List.length_range, List.length_drop]
  omega

theorem Accepted.bounded {after : SegmentReadState} {placed : ℕ × SegmentReadState}
    (h : Accepted live turn state after placed count) : after.Bounded := by
  have hcount := h.count_le
  have hlength := h.at_read.length_eq
  rw [h.after_eq]
  constructor
  · rw [length_accept hcount]
    exact hcount
  · exact hlength ▸ hcount

theorem take_accept {reading : Moment} (hb : state.filled ≤ state.buffer.length) {n : ℕ}
    (hn : n ≤ state.filled) :
    (state.accept reading position count).buffer.take n = state.buffer.take n := by
  rw [SegmentReadState.accept, List.append_assoc,
    List.take_append_of_le_length (by rw [List.length_take]; omega), List.take_take,
    Nat.min_eq_left hn]

theorem bytes_add (m n : ℕ) :
    bytes segment (m + n) = bytes segment m ++ (List.range n).map fun i => segment (m + i) := by
  rw [bytes, List.range_add, List.map_append, List.map_map]
  rfl

theorem accept_own {reading : Moment} {range : ByteRange} (hk : state.Kept segment)
    (hb : state.filled ≤ state.buffer.length)
    (hown : ∀ i < range.total, reading.byteAt (range.start + i) = segment i)
    (hstart : range.start = state.range.start)
    (hposition : position = state.range.start + state.filled) {n : ℕ}
    (hn : n ≤ state.filled + count) (hinside : n ≤ range.total) :
    (state.accept reading position count).buffer.take n = bytes segment n := by
  rcases Nat.le_total n state.filled with hle | hge
  · rw [take_accept hb hle, ← take_bytes hle, ← hk, List.take_take, Nat.min_eq_left hle]
  · obtain ⟨k, rfl⟩ := Nat.exists_eq_add_of_le hge
    have hfilled : (state.buffer.take state.filled).length = state.filled := by
      rw [List.length_take]
      omega
    have hread : ((List.range count).map fun i => reading.byteAt (position + i)).take k =
        (List.range k).map fun i => segment (state.filled + i) := by
      rw [← List.map_take, List.take_range, Nat.min_eq_left (by omega)]
      apply List.map_congr_left
      intro i hi
      have hi := List.mem_range.mp hi
      rw [hposition, ← hstart, Nat.add_assoc]
      exact hown _ (by omega)
    have hroom : k ≤ ((List.range count).map fun i => reading.byteAt (position + i)).length := by
      rw [List.length_map, List.length_range]
      omega
    rw [SegmentReadState.accept, List.append_assoc, bytes_add, ← hk]
    dsimp only
    rw [List.take_append, hfilled, List.take_of_length_le (by omega), Nat.add_sub_cancel_left,
      List.take_append_of_le_length hroom, hread]

/-- A turn's read is shown by the moment of the next re-resolution: unless that has another start,
the segment is not read elsewhere than where the reader takes it to be, and does not end, while it
is read, before the last of the bytes that are then kept. -/
def ShownBy (live : LiveRange) (turn : Turn) (next : Moment) (state : SegmentReadState) : Prop :=
  ∀ placed count, approach live turn state = .ok placed →
    tryRead (placed.2.buffer.length - placed.2.filled) turn.read = .ok (.bytes count) →
    ((live.resolve next).getD placed.2.range).start = placed.2.range.start →
    ∀ range, live.resolve turn.reading = some range → range.start = placed.2.range.start ∧
      min (placed.2.filled + count) ((live.resolve next).getD placed.2.range).total ≤ range.total

def Shown (live : LiveRange) : List Turn → SegmentReadState → Prop
  | turn :: next :: turns, state =>
    ShownBy live turn next.first state ∧ Shown live (next :: turns) (afterTurn live state turn)
  | _, _ => True

/-- The segment's bytes are the same wherever it is resolved. While it is not, they are where the
reader takes it to be. -/
structure Turn.Stable (live : LiveRange) (segment : ℕ → UInt8) (state : SegmentReadState)
    (turn : Turn) : Prop where
  resolved : ∀ moment ∈ turn.reading :: turn.looks, moment.Stable live segment
  unresolved : live.resolve turn.reading = none →
    ∀ placed, approach live turn state = .ok placed →
      ∀ i < placed.2.total, turn.reading.byteAt (placed.2.range.start + i) = segment i

abbrev StableRun (live : LiveRange) (segment : ℕ → UInt8) (turns : List Turn)
    (state : SegmentReadState) : Prop :=
  (reader live).Along (fun state turn => turn.Stable live segment state) state turns

/-- Wherever the segment is, it starts where it did and has the bytes filled so far. -/
def Turn.Extends (live : LiveRange) (state : SegmentReadState) (turn : Turn) : Prop :=
  ∀ moment ∈ turn.looks, ∀ range, live.resolve moment = some range →
    range.start = state.range.start ∧ state.filled ≤ range.total

structure Delivered (live : LiveRange) (segment : ℕ → UInt8) (answer : Return) : Prop where
  own : answer.state.buffer = bytes segment answer.state.total
  current : ∀ range, live.resolve answer.seen = some range → answer.state.range = range ∧
    answer.state.buffer =
      (List.range range.total).map fun i => answer.seen.byteAt (range.start + i)

structure Resumes (live : LiveRange) (state : SegmentReadState) (later : List Turn) : Prop where
  filled : state.filled ≤ ((reader live).runTrace state later).filled
  kept : ((reader live).runTrace state later).buffer.take state.filled =
    state.buffer.take state.filled
  beyond : ∀ address ∈ (reader live).collect (readsAt live) state later,
    state.range.start + state.filled ≤ address
  next : ∀ address ∈ ((reader live).collect (readsAt live) state later).head?,
    address = state.range.start + state.filled

structure FillsOn (live : LiveRange) (turns : List Turn) (state : SegmentReadState) : Prop where
  bounded : ∀ calls, (fillCalls live calls turns state).1.Bounded
  resumed : ∀ calls later,
    (∀ turn ∈ later, turn.Extends live (fillCalls live calls turns state).1) →
    Resumes live (fillCalls live calls turns state).1 later

structure FillsOwn (live : LiveRange) (segment : ℕ → UInt8) (turns : List Turn)
    (state : SegmentReadState) : Prop extends FillsOn live turns state where
  delivered : ∀ calls answer last rest,
    fillSegmentBuffer live (fillCalls live calls turns state).2
      (fillCalls live calls turns state).1 = (some answer, last, rest) →
    answer.result = .ok .ready → Delivered live segment answer

variable {turns used rest : List Turn} {last : SegmentReadState} {answer : Return}

theorem afterTurn_ok (h : fillTurn live turn state = .ok last) :
    afterTurn live state turn = last := by
  rw [afterTurn, h]

theorem afterTurn_error (h : fillTurn live turn state = .error answer) :
    afterTurn live state turn = answer.state := by
  rw [afterTurn, h]

theorem afterTurn_bounded (hb : state.Bounded) (turn : Turn) :
    (afterTurn live state turn).Bounded := by
  rcases fillTurn_proceeds live turn hb with
    ⟨after, hok, placed, count, haccepted⟩ | ⟨answer, herror, hanswer⟩
  · rw [afterTurn_ok hok]
    exact haccepted.bounded
  · rw [afterTurn_error herror]
    exact hanswer.settled.bounded (refreshRange_bounded hb)

theorem runTrace_bounded (hb : state.Bounded) (turns : List Turn) :
    ((reader live).runTrace state turns).Bounded := by
  induction turns generalizing state with
  | nil => exact hb
  | cons turn turns ih => exact ih (afterTurn_bounded hb turn)

theorem fillSegmentBuffer_turns {returned : Option Return}
    (h : fillSegmentBuffer live turns state = (returned, last, rest)) :
    ∃ used, turns = used ++ rest ∧ last = (reader live).runTrace state used := by
  induction turns generalizing state with
  | nil =>
    cases h
    exact ⟨[], rfl, rfl⟩
  | cons turn turns ih =>
    rw [fillSegmentBuffer] at h
    cases hturn : fillTurn live turn state with
    | ok after =>
      rw [hturn] at h
      obtain ⟨used, rfl, hlast⟩ := ih h
      refine ⟨turn :: used, rfl, ?_⟩
      rw [hlast, runTrace_cons]
      exact congrArg ((reader live).runTrace · used) (afterTurn_ok hturn).symm
    | error answer =>
      rw [hturn] at h
      cases h
      exact ⟨[turn], rfl, (afterTurn_error hturn).symm⟩

theorem fillSegmentBuffer_returns
    (h : fillSegmentBuffer live turns state = (some answer, last, rest)) :
    ∃ used turn, turns = used ++ turn :: rest ∧
      fillTurn live turn ((reader live).runTrace state used) = .error answer := by
  induction turns generalizing state with
  | nil => cases h
  | cons turn turns ih =>
    rw [fillSegmentBuffer] at h
    cases hturn : fillTurn live turn state with
    | ok after =>
      rw [hturn] at h
      obtain ⟨used, returning, rfl, hanswer⟩ := ih h
      refine ⟨turn :: used, returning, rfl, ?_⟩
      rw [runTrace_cons, ← hanswer]
      exact congrArg (fun s => fillTurn live returning ((reader live).runTrace s used))
        (afterTurn_ok hturn)
    | error answer' =>
      rw [hturn] at h
      cases h
      exact ⟨[], turn, rfl, hturn⟩

theorem fillCalls_turns (live : LiveRange) (calls : ℕ) (turns : List Turn)
    (state : SegmentReadState) :
    ∃ used, turns = used ++ (fillCalls live calls turns state).2 ∧
      (fillCalls live calls turns state).1 = (reader live).runTrace state used := by
  induction calls generalizing turns state with
  | zero => exact ⟨[], rfl, rfl⟩
  | succ calls ih =>
    rw [fillCalls]
    have hcall : fillSegmentBuffer live turns state =
      ((fillSegmentBuffer live turns state).1, (fillSegmentBuffer live turns state).2.1,
        (fillSegmentBuffer live turns state).2.2) := rfl
    obtain ⟨called, hcalled, hlast⟩ := fillSegmentBuffer_turns hcall
    obtain ⟨used, hused, hstate⟩ := ih (fillSegmentBuffer live turns state).2.2
      (fillSegmentBuffer live turns state).2.1
    refine ⟨called ++ used, ?_, ?_⟩
    · rw [List.append_assoc, ← hused]
      exact hcalled
    · rw [runTrace_append, ← hlast]
      exact hstate

theorem kept_afterTurn {next : Moment} (hb : state.Bounded)
    (hk : (refreshRange live turn.first state).1.Kept segment)
    (hstable : turn.Stable live segment state) (hshown : ShownBy live turn next state) :
    (refreshRange live next (afterTurn live state turn)).1.Kept segment := by
  have hb1 : (refreshRange live turn.first state).1.Bounded := refreshRange_bounded hb
  rcases fillTurn_proceeds live turn hb with
    ⟨after, hok, placed, count, haccepted⟩ | ⟨answer, herror, hanswer⟩
  · have hb2 := haccepted.at_read.settled.bounded hb1
    have hplaced := haccepted.at_read.settled.kept hb1 hk
    have hrange : after.range = placed.2.range := by
      rw [haccepted.after_eq]
      rfl
    have hfilled : after.filled = placed.2.filled + count := by
      rw [haccepted.after_eq]
      rfl
    rw [afterTurn_ok hok]
    rcases refreshRange_filled live next haccepted.bounded with
      hzero | ⟨hstart, hle⟩
    · rw [SegmentReadState.Kept, hzero]
      rfl
    · rw [hrange, hfilled] at hle
      rw [hrange] at hstart
      have hshown := hshown placed count haccepted.approached haccepted.read hstart
      have hn := Nat.le_min.mp hle
      rw [SegmentReadState.Kept, refreshRange_buffer, haccepted.after_eq]
      cases hlive : live.resolve turn.reading with
      | none =>
        have hinside : placed.2.filled + count ≤ placed.2.range.total :=
          Nat.le_trans haccepted.count_le (Nat.le_of_eq haccepted.at_read.length_eq)
        exact accept_own hplaced hb2.filled_le_length
          (hstable.unresolved hlive placed haccepted.approached) rfl
          haccepted.at_read.position_eq (haccepted.after_eq ▸ hn.1)
          (haccepted.after_eq ▸ Nat.le_trans hn.1 hinside)
      | some range =>
        obtain ⟨hplace, hinside⟩ := hshown range hlive
        exact accept_own hplaced hb2.filled_le_length
          (hstable.resolved turn.reading List.mem_cons_self range hlive) hplace
          haccepted.at_read.position_eq (haccepted.after_eq ▸ hn.1)
          (haccepted.after_eq ▸ Nat.le_trans hle hinside)
  · rw [afterTurn_error herror]
    exact refreshRange_kept (hanswer.settled.kept hb1 hk)

theorem runTrace_kept (hb : state.Bounded) (hstable : StableRun live segment used state)
    (hshown : Shown live (used ++ turn :: rest) state) (hk : state.Kept segment) :
    (refreshRange live turn.first ((reader live).runTrace state used)).1.Kept segment := by
  suffices hrun : ∀ (used : List Turn) (state : SegmentReadState), state.Bounded →
      StableRun live segment used state → Shown live (used ++ turn :: rest) state →
      (∀ first ∈ (used ++ [turn]).head?, (refreshRange live first.first state).1.Kept segment) →
      (refreshRange live turn.first ((reader live).runTrace state used)).1.Kept segment by
    exact hrun used state hb hstable hshown fun first _ => refreshRange_kept hk
  intro used
  induction used with
  | nil =>
    intro state _ _ _ hk
    exact hk turn rfl
  | cons first used ih =>
    intro state hb hstable hshown hk
    have hfirst := hk first rfl
    obtain ⟨hreading, hrest⟩ := hstable
    cases used with
    | nil =>
      obtain ⟨hby, -⟩ := hshown
      exact kept_afterTurn hb hfirst hreading hby
    | cons second used =>
      obtain ⟨hby, hshown⟩ := hshown
      refine ih (afterTurn live state first) (afterTurn_bounded hb first) hrest hshown ?_
      rintro _ ⟨rfl⟩
      exact kept_afterTurn hb hfirst hreading hby

structure Ahead (state later : SegmentReadState) : Prop where
  start_eq : later.range.start = state.range.start
  filled_le : state.filled ≤ later.filled
  take_eq : later.buffer.take state.filled = state.buffer.take state.filled

/-- Wherever the range is resolved, it has the bytes a state has filled. -/
def Reaching (live : LiveRange) (state : SegmentReadState) (looks : List Moment) : Prop :=
  ∀ moment ∈ looks, ∀ range, live.resolve moment = some range →
    range.start = state.range.start ∧ state.filled ≤ range.total

theorem Ahead.refresh (ha : Ahead state settled) (hr : Reaching live state [moment]) :
    Ahead state (refreshRange live moment settled).1 := by
  constructor
  case start_eq =>
    rw [refreshRange_range]
    cases hlive : live.resolve moment with
    | none => exact ha.start_eq
    | some range => exact (hr moment List.mem_cons_self range hlive).1
  case filled_le =>
    rcases refreshRange_cases settled live moment with h | ⟨range, hlive, h⟩
    · rw [h]
      exact ha.filled_le
    · obtain ⟨hstart, htotal⟩ := hr moment List.mem_cons_self range hlive
      rw [h]
      simp only [if_pos (hstart.trans ha.start_eq.symm)]
      exact Nat.le_min.mpr ⟨ha.filled_le, htotal⟩
  case take_eq =>
    rw [refreshRange_buffer]
    exact ha.take_eq

theorem Settled.ahead {origin : SegmentReadState} (h : Settled live looks state settled)
    (hb : state.Bounded) (ha : Ahead origin state) (hr : Reaching live origin looks) :
    Ahead origin settled := by
  induction h with
  | refl => exact ha
  | refresh _ hm ih =>
    refine ih.refresh ?_
    intro moment hmoment
    rw [List.mem_singleton.mp hmoment]
    exact hr _ hm
  | resize hs hsized ih =>
    have hresized := resizeTo_resized (hs.bounded hb) hsized
    constructor
    · rw [hresized.range_eq]
      exact ih.start_eq
    · rw [hresized.filled_eq]
      exact ih.filled_le
    · rw [hresized.take_eq _ ih.filled_le]
      exact ih.take_eq

theorem Settled.filled_le (h : Settled live looks state settled) (hb : state.Bounded) :
    settled.filled ≤ state.filled := by
  induction h with
  | refl => exact Nat.le_refl _
  | refresh hs _ ih =>
    rename_i before moment _
    rcases refreshRange_filled live moment (hs.bounded hb) with h | ⟨-, h⟩
    · rw [h]
      exact Nat.zero_le _
    · exact Nat.le_trans (Nat.le_trans h (Nat.min_le_left _ _)) ih
  | resize hs hsized ih =>
    rw [(resizeTo_resized (hs.bounded hb) hsized).filled_eq]
    exact ih

theorem settled_first (h : Settled live turn.looks (refreshRange live turn.first state).1 settled) :
    Settled live turn.looks state settled := by
  refine Settled.trans (.refresh .refl ?_) h
  rw [Turn.looks]
  exact List.mem_cons_self

theorem afterTurn_ahead {origin : SegmentReadState} (hb : state.Bounded) (ha : Ahead origin state)
    (hr : Reaching live origin turn.looks) : Ahead origin (afterTurn live state turn) := by
  rcases fillTurn_proceeds live turn hb with
    ⟨after, hok, placed, count, haccepted⟩ | ⟨answer, herror, hanswer⟩
  · have hsettled := settled_first haccepted.at_read.settled
    obtain ⟨hstart, hfilled, htake⟩ := hsettled.ahead hb ha hr
    rw [afterTurn_ok hok, haccepted.after_eq]
    constructor
    · exact hstart
    · exact Nat.le_trans hfilled (Nat.le_add_right _ _)
    · rw [take_accept (hsettled.bounded hb).filled_le_length hfilled]
      exact htake
  · rw [afterTurn_error herror]
    exact (settled_first hanswer.settled).ahead hb ha hr

theorem readsAt_cases (live : LiveRange) (turn : Turn) (hb : state.Bounded) :
    (∃ placed, Settled live turn.looks state placed ∧
        readsAt live state turn = [placed.range.start + placed.filled]) ∨
      readsAt live state turn = [] ∧ (afterTurn live state turn).filled ≤ state.filled := by
  rcases approach_proceeds live turn hb with
    ⟨placed, hplaced, hat⟩ | ⟨answer, herror, hanswer⟩
  · refine .inl ⟨placed.2, settled_first hat.settled, ?_⟩
    rw [readsAt, hplaced, ← hat.position_eq]
  · refine .inr ⟨by rw [readsAt, herror], ?_⟩
    have hturn : fillTurn live turn state = .error answer := by
      rw [fillTurn, herror]
      rfl
    rw [afterTurn_error hturn]
    exact (settled_first hanswer.settled).filled_le hb

theorem runTrace_ahead {origin : SegmentReadState} (hb : state.Bounded) (ha : Ahead origin state)
    (hr : ∀ turn ∈ turns, Reaching live origin turn.looks) :
    Ahead origin ((reader live).runTrace state turns) := by
  induction turns generalizing state with
  | nil => exact ha
  | cons turn turns ih =>
    have hturn := hr turn List.mem_cons_self
    exact ih (afterTurn_bounded hb turn) (afterTurn_ahead hb ha hturn)
      fun later hl => hr later (List.mem_cons_of_mem turn hl)

theorem collect_beyond {origin : SegmentReadState} (hb : state.Bounded) (ha : Ahead origin state)
    (hr : ∀ turn ∈ turns, Reaching live origin turn.looks) :
    ∀ address ∈ (reader live).collect (readsAt live) state turns,
      origin.range.start + origin.filled ≤ address := by
  induction turns generalizing state with
  | nil =>
    intro address h
    cases h
  | cons turn turns ih =>
    have hturn := hr turn List.mem_cons_self
    intro address h
    rcases List.mem_append.mp h with h | h
    · rcases readsAt_cases live turn hb with ⟨placed, hsettled, hreads⟩ | ⟨hnone, -⟩
      · rw [hreads, List.mem_singleton] at h
        have hplaced := hsettled.ahead hb ha hturn
        rw [h, hplaced.start_eq]
        exact Nat.add_le_add_left hplaced.filled_le _
      · rw [hnone] at h
        cases h
    · exact ih (afterTurn_bounded hb turn) (afterTurn_ahead hb ha hturn)
        (fun later hl => hr later (List.mem_cons_of_mem turn hl)) address h

theorem collect_next {origin : SegmentReadState} (hb : state.Bounded) (ha : Ahead origin state)
    (hsame : state.filled ≤ origin.filled) (hr : ∀ turn ∈ turns, Reaching live origin turn.looks) :
    ∀ address ∈ ((reader live).collect (readsAt live) state turns).head?,
      address = origin.range.start + origin.filled := by
  induction turns generalizing state with
  | nil =>
    intro address h
    cases h
  | cons turn turns ih =>
    have hturn := hr turn List.mem_cons_self
    intro address h
    rw [Machine.collect] at h
    rcases readsAt_cases live turn hb with ⟨placed, hsettled, hreads⟩ | ⟨hnone, hfilled⟩
    · rw [hreads] at h
      cases h
      have hplaced := hsettled.ahead hb ha hturn
      have hle := Nat.le_trans (hsettled.filled_le hb) hsame
      rw [hplaced.start_eq, Nat.le_antisymm hle hplaced.filled_le]
    · rw [hnone] at h
      exact ih (afterTurn_bounded hb turn) (afterTurn_ahead hb ha hturn)
        (Nat.le_trans hfilled hsame) (fun later hl => hr later (List.mem_cons_of_mem turn hl))
        address h

theorem resumes (hb : state.Bounded) (he : ∀ turn ∈ turns, turn.Extends live state) :
    Resumes live state turns := by
  have hself : Ahead state state := ⟨rfl, Nat.le_refl _, rfl⟩
  have hahead := runTrace_ahead hb hself he
  constructor
  · exact hahead.filled_le
  · exact hahead.take_eq
  · exact collect_beyond hb hself he
  · exact collect_next hb hself (Nat.le_refl _) he

theorem new_bounded (range : ByteRange) (buffer : List UInt8) :
    (SegmentReadState.new range buffer).Bounded :=
  ⟨Nat.zero_le _, Nat.zero_le _⟩

theorem delivered_of_kept (hb : state.Bounded) (hstable : turn.Stable live segment state)
    (hk : (refreshRange live turn.first state).1.Kept segment)
    (hreturn : fillTurn live turn state = .error answer) (hready : answer.result = .ok .ready) :
    Delivered live segment answer := by
  have hb1 : (refreshRange live turn.first state).1.Bounded := refreshRange_bounded hb
  rcases fillTurn_proceeds live turn hb with ⟨after, hok, -⟩ | ⟨answer', herror, hanswer⟩
  · rw [hreturn] at hok
    cases hok
  · rw [hreturn] at herror
    cases herror
    obtain ⟨hlength, hfilled, hcurrent⟩ := hanswer.complete hready
    have hsame : answer.state.filled = answer.state.total :=
      Nat.le_antisymm (hanswer.settled.bounded hb1).filled_le_total hfilled
    have hown : answer.state.buffer = bytes segment answer.state.total := by
      have hkept := hanswer.settled.kept hb1 hk
      rw [SegmentReadState.Kept, hsame, ← hlength, List.take_length] at hkept
      rw [← hlength]
      exact hkept
    constructor
    case own => exact hown
    case current =>
      intro range hlive
      have hrange := hcurrent range hlive
      refine ⟨hrange, ?_⟩
      rw [hown, SegmentReadState.total, hrange, bytes]
      apply List.map_congr_left
      intro i hi
      exact (hstable.resolved answer.seen (List.mem_cons_of_mem _ hanswer.seen) range hlive i
        (List.mem_range.mp hi)).symm

theorem fills_on (live : LiveRange) (turns : List Turn) (range : ByteRange)
    (buffer : List UInt8) : FillsOn live turns (.new range buffer) := by
  have hb : ∀ calls, (fillCalls live calls turns (.new range buffer)).1.Bounded := by
    intro calls
    obtain ⟨used, -, hstate⟩ := fillCalls_turns live calls turns (.new range buffer)
    rw [hstate]
    exact runTrace_bounded (new_bounded range buffer) used
  exact ⟨hb, fun calls later he => resumes (hb calls) he⟩

/-- Every sequence of calls stays within the buffer, and each call resumes where the last one
stopped. Along one whose reads are shown, each call that is ready delivers the segment's own
bytes. -/
theorem fills_own_of_shown (live : LiveRange) (segment : ℕ → UInt8) (turns : List Turn)
    (range : ByteRange) (buffer : List UInt8) :
    FillsOn live turns (.new range buffer) ∧
      (StableRun live segment turns (.new range buffer) → Shown live turns (.new range buffer) →
        FillsOwn live segment turns (.new range buffer)) := by
  refine ⟨fills_on live turns range buffer, fun hstable hshown =>
    ⟨fills_on live turns range buffer, ?_⟩⟩
  intro calls answer last rest hcall hready
  obtain ⟨before, hturns, hstate⟩ := fillCalls_turns live calls turns (.new range buffer)
  obtain ⟨used, turn, hused, hreturn⟩ := fillSegmentBuffer_returns hcall
  rw [hused, ← List.append_assoc] at hturns
  rw [hstate, ← runTrace_append] at hreturn
  rw [hturns] at hstable hshown
  obtain ⟨hbefore, hturn, -⟩ := along_append.mp hstable
  have hnew : (SegmentReadState.new range buffer).Kept segment := rfl
  have hkept := runTrace_kept (new_bounded range buffer) hbefore hshown hnew
  exact delivered_of_kept (runTrace_bounded (new_bounded range buffer) (before ++ used))
    hturn hkept hreturn hready

def fourBytes (start : ℕ) : Moment where
  initSegmentRange := ⟨0, 0, Nat.le_refl 0⟩
  segmentAtIndex _ := some ⟨start, start + 4, Nat.le_add_right start 4⟩
  byteAt address :=
    if start ≤ address ∧ address < start + 4 then UInt8.ofNat (address - start + 1) else 0
  room := 4096

def counted (i : ℕ) : UInt8 := UInt8.ofNat (i + 1)

theorem fourBytes_stable (index : UInt32) (start : ℕ) :
    (fourBytes start).Stable (.segment index) counted := by
  rintro _ ⟨rfl⟩ i hi
  have hi : i < 4 := by simpa [ByteRange.total] using hi
  have hinside : start ≤ start + i ∧ start + i < start + 4 := by omega
  simp only [fourBytes, if_pos hinside, Nat.add_sub_cancel_left, counted]

/-- A turn of a layout that is read while the segment is somewhere, maybe elsewhere. -/
def turnAt (start readStart : ℕ) (read : Except IoError ℕ) : Turn where
  first := fourBytes start
  seek := .ok ()
  second := fourBytes start
  reseek := .ok ()
  reading := fourBytes readStart
  read
  last := fourBytes start

theorem turnAt_stable (index : UInt32) (start readStart : ℕ) (read : Except IoError ℕ)
    (state : SegmentReadState) :
    (turnAt start readStart read).Stable (.segment index) counted state := by
  constructor
  · intro moment hm
    simp only [turnAt, Turn.looks, List.mem_cons, List.not_mem_nil, or_false, or_self] at hm
    rcases hm with rfl | rfl
    · exact fourBytes_stable index readStart
    · exact fourBytes_stable index start
  · intro hnone
    cases hnone

/-- Two bytes, an interruption, a shift by one, and the whole segment from its new start. -/
def shiftedRun : List Turn :=
  [turnAt 10 10 (.ok 2), turnAt 10 10 (.error ⟨some (.reason .retry), true⟩),
    turnAt 9 9 (.ok 4), turnAt 9 9 (.ok 1)]

theorem shiftedRun_fills_own :
    FillsOwn (.segment 2) counted shiftedRun (.new ⟨10, 14, by decide⟩ []) := by
  apply (fills_own_of_shown (.segment 2) counted shiftedRun ⟨10, 14, by decide⟩ []).2
  · exact ⟨turnAt_stable 2 10 10 _ _, turnAt_stable 2 10 10 _ _, turnAt_stable 2 9 9 _ _,
      turnAt_stable 2 9 9 _ _, trivial⟩
  · refine ⟨?_, ?_, ?_, trivial⟩
    · intro placed count h _ _ range hrange
      cases h
      cases hrange
      exact ⟨rfl, Nat.min_le_right _ _⟩
    · intro placed count h hread
      cases h
      cases hread
    · intro placed count h _ _ range hrange
      cases h
      cases hrange
      exact ⟨rfl, Nat.min_le_right _ _⟩

/-- A shift that is undone before the next re-resolution: an earlier segment turns out a byte
shorter and the one after it a byte longer, and the read falls between the two. -/
def undoneShift : List Turn := [turnAt 10 9 (.ok 4), turnAt 10 10 (.ok 1)]

theorem undoneShift_delivers_stale :
    ¬ ∀ live segment turns range buffer, StableRun live segment turns (.new range buffer) →
      FillsOwn live segment turns (.new range buffer) := by
  intro hclaim
  have hfills := hclaim (.segment 2) counted undoneShift ⟨10, 14, by decide⟩ []
    ⟨turnAt_stable 2 10 9 _ _, turnAt_stable 2 10 10 _ _, trivial⟩
  have hown := (hfills.delivered 0 _ _ _ rfl rfl).own
  exact absurd hown (by decide)

end SegmentFill

import Mathlib.Data.List.Basic
import Mathlib.Data.Nat.Notation

/-! Where a queue goes next and back: the shuffle bag that is drawn cycle by cycle, and the bounded
history of the tracks left. What a call reads of the queue, its tracks and the current one, is
passed in. -/
namespace Navigation

abbrev TrackId := UInt64

inductive PlaybackOrder where
  | sequential
  | shuffle
  deriving DecidableEq, Repr

inductive RepeatMode where
  | off
  | one
  | all
  deriving DecidableEq, Repr

inductive AdvanceReason where
  | initialLoad
  | naturalEof
  | crossfadePreArm
  | userSelect
  | userNext
  | userPrev
  | trackFailed
  | removedCurrent
  | repeat
  | cancelled
  deriving DecidableEq, Repr

/-- The outcomes of the random generator, draw by draw: whatever it does, it permutes. -/
structure Rng where
  shuffle : ℕ → List TrackId → List TrackId
  perm : ∀ draw tracks, (shuffle draw tracks).Perm tracks

/-- `draws` says how far the generator has come. -/
structure NavigationState where
  playbackOrder : PlaybackOrder
  repeatMode : RepeatMode
  draws : ℕ
  bag : List TrackId
  history : List TrackId
  historyLimit : ℕ
  deriving DecidableEq, Repr

def swapEnds : List TrackId → List TrackId
  | [] => []
  | first :: rest =>
    match rest.getLast? with
    | none => [first]
    | some last => last :: rest.dropLast ++ [first]

namespace NavigationState

def new (historyLimit : ℕ) : NavigationState where
  playbackOrder := .sequential
  repeatMode := .off
  draws := 0
  bag := []
  history := []
  historyLimit := historyLimit

variable (R : Rng)

def freshCycle (s : NavigationState) (tracks : List TrackId) (avoidFirst : Option TrackId) :
    NavigationState :=
  let bag := R.shuffle s.draws tracks
  { s with
    draws := s.draws + 1
    bag := if 1 < bag.length ∧ avoidFirst.isSome = true ∧ bag.getLast? = avoidFirst
      then swapEnds bag else bag }

def insert (s : NavigationState) (id : TrackId) (current : Option TrackId) : NavigationState :=
  if s.playbackOrder = .shuffle ∧ current ≠ some id ∧ id ∉ s.bag then
    { s with draws := s.draws + 1, bag := R.shuffle s.draws (s.bag ++ [id]) }
  else s

def ended (bag : List TrackId) (current : Option TrackId) (allowWrap : Bool) : Bool :=
  bag.isEmpty || (allowWrap && bag.all fun id => current == some id)

/-- Does a call with these arguments draw a new cycle? -/
def redraws (s : NavigationState) (tracks : List TrackId) (current : Option TrackId)
    (allowWrap : Bool) : Bool :=
  s.playbackOrder == .shuffle &&
    (ended (s.bag.filter fun id => tracks.contains id) current allowWrap &&
      (allowWrap || current.isNone))

def drawCycle (s : NavigationState) (tracks : List TrackId) (current : Option TrackId)
    (allowWrap : Bool) : NavigationState :=
  if s.playbackOrder ≠ .shuffle then s
  else
    let s' := { s with bag := s.bag.filter fun id => tracks.contains id }
    if ended s'.bag current allowWrap && (allowWrap || current.isNone) then
      s'.freshCycle R tracks current
    else s'

def nextSequential (tracks : List TrackId) (current : Option TrackId) (allowWrap : Bool) :
    Option TrackId :=
  match current with
  | none => tracks.head?
  | some current =>
    if current ∈ tracks then
      (tracks[tracks.idxOf current + 1]?).or (if allowWrap then tracks.head? else none)
    else none

def peek (s : NavigationState) (tracks : List TrackId) (current : Option TrackId)
    (allowRepeatOne allowWrap : Bool) : Option TrackId :=
  if allowRepeatOne = true ∧ s.repeatMode = .one then current.filter fun id => tracks.contains id
  else match s.playbackOrder with
    | .sequential => nextSequential tracks current allowWrap
    | .shuffle => s.bag.reverse.find? fun id =>
        tracks.contains id && (current != some id || (tracks.length == 1 && allowWrap))

def next (s : NavigationState) (tracks : List TrackId) (current : Option TrackId)
    (allowRepeatOne allowWrap : Bool) : NavigationState × Option TrackId :=
  let s' := s.drawCycle R tracks current allowWrap
  (s', s'.peek tracks current allowRepeatOne allowWrap)

def prev (s : NavigationState) (tracks : List TrackId) : Option TrackId :=
  s.history.reverse.find? fun id => tracks.contains id

def pushHistory (s : NavigationState) (id : TrackId) : NavigationState :=
  if s.history.getLast? = some id then s
  else if s.historyLimit ≤ s.history.length then
    { s with history := s.history.tail ++ [id] }
  else { s with history := s.history ++ [id] }

def reconcile (s : NavigationState) (tracks : List TrackId) : NavigationState :=
  { s with
    history := s.history.filter fun id => tracks.contains id
    bag := s.bag.filter fun id => tracks.contains id }

/-- The history up to the last time it names `id`. -/
def truncateAt (history : List TrackId) (id : TrackId) : List TrackId :=
  if id ∈ history then history.take (history.length - 1 - history.reverse.idxOf id) else history

/-- What a commit does to the history. -/
def leave (s : NavigationState) (source : Option TrackId) (id : TrackId) (reason : AdvanceReason) :
    NavigationState :=
  if reason = .userPrev then { s with history := truncateAt s.history id }
  else match source.filter fun current => current != id with
    | none => s
    | some current => s.pushHistory current

def commit (s : NavigationState) (source : Option TrackId) (id : TrackId) (reason : AdvanceReason)
    (tracks : List TrackId) : NavigationState :=
  let s' := s.leave source id reason
  if s'.playbackOrder = .shuffle then
    let drawn := if s'.bag.isEmpty then s'.freshCycle R tracks (some id) else s'
    { drawn with bag := drawn.bag.filter fun candidate => candidate != id }
  else s'

def setPlaybackOrder (s : NavigationState) (order : PlaybackOrder) (tracks : List TrackId)
    (current : Option TrackId) : NavigationState :=
  if s.playbackOrder = order then s
  else { s with playbackOrder := order, history := [] }.freshCycle R tracks current

end NavigationState

end Navigation

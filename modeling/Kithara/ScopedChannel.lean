import Kithara.CommandChannel
import Kithara.SlotLifecycle
import Mathlib.Logic.Function.Basic
import Mathlib.Data.List.FinRange

/-! One publication ring shared by a root level and scope slots that are opened, closed and
reused. The owner stages every level's batches and publishes them in one store; the executor
drains them, runs its levels and retires what was closed. Each ring operation and each look at
the gate is a step of its own. -/
namespace ScopedChannel

open BoundedRing CommandProtocol CommandDocket CommandLevel CommandChannel TransitionSystem
open SlotLifecycle (Phase)

/-- Capacities reserved once: credits and targets of the root, slots, credits and targets of
each. -/
structure Config where
  rootCapacity : ℕ
  rootTargets : ℕ
  scopes : ℕ
  scopeCapacity : ℕ
  scopeTargets : ℕ

namespace Config

/-- Every scope reserves one credit more than its batches, for its Close. -/
def scopeTotal (c : Config) : ℕ := c.scopes * (c.scopeCapacity + 1)

def commandCapacity (c : Config) : ℕ := c.rootCapacity + c.scopeTotal

end Config

def generations : ℕ := 2 ^ 32

/-- A slot identity; retirement changes its generation before it can be reused. -/
structure ScopeId (scopes : ℕ) where
  index : Fin scopes
  generation : ℕ
  deriving DecidableEq

variable (R M : Protocol) (c : Config)

inductive Item where
  | root (sent : Sent R)
  | scope (id : ScopeId c.scopes) (sent : Sent M)
  | close (id : ScopeId c.scopes)

inductive ScopeReply where
  | receipt (id : ScopeId c.scopes) (receipt : Receipt M)
  | closed (id : ScopeId c.scopes)

inductive Reply where
  | root (receipt : Receipt R)
  | scope (reply : ScopeReply M c)

inductive ScopedReceipt where
  | root (receipt : Receipt R)
  | scope (id : ScopeId c.scopes) (receipt : Receipt M)
  | closed (id : ScopeId c.scopes)

structure Slot where
  state : Phase
  generation : ℕ
  book : Book M

/-- A scope's docket and lifecycle, and the batch of it that the executor holds. -/
structure ScopeDocket where
  docket : Docket M
  hand : Hand M
  generation : ℕ
  closing : Bool

inductive OwnerPhase where
  | idle
  | rootAdmitted (when : When R.Clock) (batch : Batch R)
  | scopeAdmitted (index : Fin c.scopes) (when : When M.Clock) (batch : Batch M)
  /-- Past the first look at the gate, with something staged. -/
  | entering
  | publishing
  /-- Past the recovery of orphans, to read the root's receipts and then perhaps the scopes'. -/
  | reading (scopes : Bool)
  | readingScopes

inductive Task where
  | idle
  | drain
  | refuseTimed (root : R.Refusal) (scope : M.Refusal)
  | retireClosing
  | teardown

/-- How far the inbox is torn down; its rings are released in this order. -/
inductive Stage where
  | live
  | closed
  | unanswered
  | commandsReleased
  | rootReleased
  | gone
  deriving DecidableEq

structure State where
  gateClosed : Bool
  commands : Ring (Item R M c) c.commandCapacity
  rootAnswers : Ring (Receipt R) c.rootCapacity
  scopeAnswers : Ring (ScopeReply M c) c.scopeTotal
  staged : List (Item R M c)
  root : Book R
  slots : Fin c.scopes → Slot M
  nextSeq : ℕ
  phase : OwnerPhase R M c
  stage : Stage
  task : Task R M
  rootDocket : Docket R
  rootHand : Hand R
  scopes : Fin c.scopes → ScopeDocket M
  replies : List (Reply R M c)
  /-- The passes published, the items the executor drained, those it never will, those the owner
  threw away, and what the owner was told. -/
  passes : List (List (Item R M c))
  drained : List (Item R M c)
  recovered : List (Item R M c)
  lost : List (Item R M c)
  received : List (ScopedReceipt R M c)

inductive Call (P : Protocol) where
  | nextDue (start : P.Clock) (frames : ℕ)
  | nextDeferred
  | resume (seq : ℕ) (start moment : P.Clock)
  | complete (seq : ℕ) (data : P.Applied)
  | apply (data : P.Applied)
  | refuse (refusal : P.Refusal)
  | defer
  | commit
  | park
  | drop
  | editHand (edit : List P.Command → List P.Command)
  | editCommitted (seq : ℕ) (edit : List P.Command → List P.Command)

inductive Action where
  | open (targets : ℕ)
  | enterRoot (when : When R.Clock) (batch : Batch R)
  | enterScope (index generation : ℕ) (when : When M.Clock) (batch : Batch M)
  | push
  | close (index generation : ℕ)
  | publish
  | enterGate
  | pushPass
  | read (scopes : Bool)
  | popRoot
  | popScope
  | begin (task : Task R M)
  | pop
  | rootCall (call : Call R)
  | scopeCall (index generation : ℕ) (call : Call M)
  | retire (index generation : ℕ)
  | reply
  | dropInbox
  | releaseCommands
  | releaseRoot
  | releaseScopes

variable {R M c} {P : Protocol}

def start : State R M c where
  gateClosed := false
  commands := .empty
  rootAnswers := .empty
  scopeAnswers := .empty
  staged := []
  root := .new c.rootCapacity c.rootTargets
  slots _ := { state := .free, generation := 0, book := .new c.scopeCapacity c.scopeTargets }
  nextSeq := Seq.first
  phase := .idle
  stage := .live
  task := .idle
  rootDocket := .new c.rootTargets
  rootHand := .empty
  scopes _ := { docket := .new c.scopeTargets, hand := .empty, generation := 0, closing := false }
  replies := []
  passes := []
  drained := []
  recovered := []
  lost := []
  received := []

/-- The docket and the batch in hand after a call; a call on the batch in hand does nothing
without one. -/
def Call.run (d : Docket P) (hand : Hand P) : Call P → Turn P
  | .nextDue start frames => takeDue d start frames
  | .nextDeferred => takeDeferred d
  | .resume seq start moment => takeParked d seq start moment
  | .complete seq data => CommandLevel.complete d hand seq data
  | .apply data => match hand with
    | .due held => held.apply d data
    | _ => { docket := d, hand := hand, replies := [] }
  | .refuse refusal => match hand with
    | .empty => { docket := d, hand := hand, replies := [] }
    | .due held => held.answer d (.refused refusal)
    | .deferred held => held.answer d (.refused refusal)
  | .defer => match hand with
    | .due held => held.defer d
    | _ => { docket := d, hand := hand, replies := [] }
  | .commit => match hand with
    | .due held => held.commit d
    | _ => { docket := d, hand := hand, replies := [] }
  | .park => match hand with
    | .deferred held => held.park d
    | _ => { docket := d, hand := hand, replies := [] }
  | .drop => match hand with
    | .empty => { docket := d, hand := hand, replies := [] }
    | .due held => held.answer d .unanswered
    | .deferred held => held.answer d .unanswered
  | .editHand edit => { docket := d, hand := CommandChannel.editHand edit hand, replies := [] }
  | .editCommitted seq edit =>
    { docket := CommandLevel.editCommitted d seq edit, hand := hand, replies := [] }

def Call.Allowed (hand : Hand P) : Call P → Prop
  | .nextDue _ _ | .nextDeferred | .resume _ _ _ => hand = .empty
  | .complete _ _ | .editCommitted _ _ => ∀ held, hand ≠ .deferred held
  | .apply _ | .defer | .commit | .editHand _ => ∃ held, hand = .due held
  | .refuse _ | .drop => hand ≠ .empty
  | .park => ∃ held, hand = .deferred held

namespace State

def HandsEmpty (s : State R M c) : Prop :=
  s.rootHand = .empty ∧ ∀ i, (s.scopes i).hand = .empty

def Ready (s : State R M c) : Prop :=
  s.stage = .live ∧ s.task = .idle ∧ s.HandsEmpty ∧ s.replies = []

def Callable (s : State R M c) (hand : Hand P) : Prop :=
  s.stage = .live ∧ s.task = .idle ∧ s.replies = [] ∧ (s.HandsEmpty ∨ hand ≠ .empty)

def slot? (index : ℕ) : Option (Fin c.scopes) :=
  if h : index < c.scopes then some ⟨index, h⟩ else none

def slotId (s : State R M c) (i : Fin c.scopes) : ScopeId c.scopes :=
  ⟨i, (s.slots i).generation⟩

def scopeId (s : State R M c) (i : Fin c.scopes) : ScopeId c.scopes :=
  ⟨i, (s.scopes i).generation⟩

def scope (s : State R M c) (index generation : ℕ) : Option (Fin c.scopes) :=
  (slot? index).filter fun i => (s.slots i).generation = generation ∧ (s.slots i).state ≠ .free

def level (s : State R M c) (index generation : ℕ) : Option (Fin c.scopes) :=
  (slot? index).filter fun i => (s.scopes i).generation = generation

inductive OpenError where
  | exhausted
  | targets (targets limit : ℕ)
  deriving DecidableEq

def tryOpen (s : State R M c) (targets : ℕ) : Except OpenError (Fin c.scopes) :=
  if targets > c.scopeTargets then .error (.targets targets c.scopeTargets)
  else match (List.finRange c.scopes).find? fun i => (s.slots i).state = .free with
    | none => .error .exhausted
    | some i => .ok i

def vacant (s : State R M c) : ℕ := c.commandCapacity - s.commands.items.length

/-- A send past the gate: it spends a credit of its level and stages the batch. -/
def push (s : State R M c) (book : Book P) (when : When P.Clock) (batch : Batch P) :
    Except (SendError P) (Sent P × Book P) :=
  if book.admits batch = false then .error (.target batch)
  else if book.credits = 0 ∨ s.vacant ≤ s.staged.length then .error (.full batch)
  else .ok ({ batch := batch, seq := s.nextSeq, when := when },
    book.spend when s.nextSeq batch.basis)

def discard (s : State R M c) : State R M c :=
  { s with staged := [], lost := s.lost ++ s.staged, phase := .idle }

def pushPass (s : State R M c) : State R M c :=
  { s with
    commands := ⟨s.commands.items ++ s.staged.take s.vacant, by
      have hbound := s.commands.bounded
      simp only [List.length_append, List.length_take, vacant]
      omega⟩
    passes := s.passes ++ [s.staged.take s.vacant]
    lost := s.lost ++ s.staged.drop s.vacant
    staged := []
    phase := .idle }

def pushReply (s : State R M c) : Reply R M c → State R M c
  | .root receipt => match s.rootAnswers.tryPush receipt with
    | some answers => { s with rootAnswers := answers }
    | none => s
  | .scope reply => match s.scopeAnswers.tryPush reply with
    | some answers => { s with scopeAnswers := answers }
    | none => s

end State

def Item.orphan : Item R M c → Reply R M c
  | .root sent => .root sent.unanswered
  | .scope id sent => .scope (.receipt id sent.unanswered)
  | .close id => .scope (.closed id)

namespace State

def recoverOne (s : State R M c) : State R M c :=
  match s.commands.tryPop with
  | none => s
  | some (item, commands) =>
    { s with commands := commands, recovered := s.recovered ++ [item] }.pushReply item.orphan

/-- Once the inbox released all its rings, the owner answers what is left in the command ring. -/
def recoverOrphans (s : State R M c) : State R M c :=
  if s.stage = .gone then recoverOne^[s.commands.items.length] s else s

def hearRoot (s : State R M c) (receipt : Receipt R) : State R M c :=
  { s with root := s.root.settle receipt, received := s.received ++ [.root receipt] }

def hearScope (s : State R M c) : ScopeReply M c → State R M c
  | .receipt id receipt =>
    let slot := s.slots id.index
    { s with
      slots := if slot.generation = id.generation then
          Function.update s.slots id.index { slot with book := slot.book.settle receipt }
        else s.slots
      received := s.received ++ [.scope id receipt] }
  | .closed id =>
    let slot := s.slots id.index
    { s with
      slots := if slot.generation = id.generation then
          Function.update s.slots id.index
            { slot with generation := SlotLifecycle.wrap generations id.generation, state := .free }
        else s.slots
      received := s.received ++ [.closed id] }

def route (s : State R M c) : Item R M c → State R M c
  | .root sent => { s with rootDocket := s.rootDocket.insert sent }
  | .scope id sent =>
    let scope := s.scopes id.index
    if scope.generation = id.generation then
      { s with
        scopes := Function.update s.scopes id.index
          { scope with docket := scope.docket.insert sent } }
    else { s with replies := [.scope (.receipt id sent.unanswered)] }
  | .close id =>
    let scope := s.scopes id.index
    if scope.generation = id.generation then
      { s with scopes := Function.update s.scopes id.index { scope with closing := true } }
    else s

end State

abbrev ScopeTurn (M : Protocol) (c : Config) := ScopeDocket M × List (ScopeReply M c)

namespace ScopeDocket

def take (scope : ScopeDocket M) (i : Fin c.scopes) (t : Turn M) : ScopeTurn M c :=
  ({ scope with docket := t.docket, hand := t.hand },
    t.replies.map (.receipt ⟨i, scope.generation⟩))

def refuseTimed (refusal : M.Refusal) (i : Fin c.scopes) (scope : ScopeDocket M) :
    ScopeTurn M c :=
  scope.take i (CommandLevel.refuseTimed scope.docket refusal)

def unanswered (i : Fin c.scopes) (scope : ScopeDocket M) : ScopeTurn M c :=
  scope.take i (CommandLevel.unanswered scope.docket)

/-- Returns leftovers whole, clears the ledger, advances the generation and answers Closed
last. -/
def retire (i : Fin c.scopes) (scope : ScopeDocket M) : ScopeTurn M c :=
  if scope.closing then
    let left : ScopeTurn M c := scope.unanswered i
    ({ left.1 with
        docket := { left.1.docket with ledger := left.1.docket.ledger.reset }
        generation := SlotLifecycle.wrap generations scope.generation
        closing := false },
      left.2 ++ [.closed ⟨i, scope.generation⟩])
  else (scope, [])

end ScopeDocket

namespace State

def turnAll (s : State R M c) (root : Turn R)
    (turn : Fin c.scopes → ScopeDocket M → ScopeTurn M c) : State R M c :=
  { s with
    rootDocket := root.docket
    rootHand := root.hand
    scopes := fun i => (turn i (s.scopes i)).1
    replies := root.replies.map .root ++
      (List.finRange c.scopes).flatMap fun i => (turn i (s.scopes i)).2.map .scope }

def turnOne (s : State R M c) (i : Fin c.scopes) (turn : ScopeTurn M c) : State R M c :=
  { s with
    scopes := Function.update s.scopes i turn.1
    replies := turn.2.map .scope }

/-- With the ring drained, the executor does what it drained it for. -/
def finish (s : State R M c) : State R M c :=
  match s.task with
  | .idle => s
  | .drain => { s with task := .idle }
  | .refuseTimed root scope =>
    { s.turnAll (CommandLevel.refuseTimed s.rootDocket root) (ScopeDocket.refuseTimed scope) with
      task := .idle }
  | .retireClosing =>
    { s.turnAll { docket := s.rootDocket, hand := s.rootHand, replies := [] } ScopeDocket.retire with
      task := .idle }
  | .teardown =>
    { s.turnAll (CommandLevel.unanswered s.rootDocket) ScopeDocket.unanswered with
      task := .idle
      stage := .unanswered }

end State

def Enabled (s : State R M c) : Action R M → Prop
  | .open _ | .enterRoot _ _ | .enterScope _ _ _ _ | .close _ _ | .publish | .read _ =>
    s.phase = .idle
  | .push => (∃ when batch, s.phase = .rootAdmitted when batch) ∨
    ∃ i when batch, s.phase = .scopeAdmitted i when batch
  | .enterGate => s.phase = .entering
  | .pushPass => s.phase = .publishing
  | .popRoot => ∃ scopes, s.phase = .reading scopes
  | .popScope => s.phase = .readingScopes
  | .begin task => s.Ready ∧ task ≠ .idle ∧ task ≠ .teardown
  | .pop => s.task ≠ .idle ∧ s.replies = []
  | .rootCall call => s.Callable s.rootHand ∧ call.Allowed s.rootHand
  | .scopeCall index generation call => ∀ i, s.level index generation = some i →
    s.Callable (s.scopes i).hand ∧ call.Allowed (s.scopes i).hand
  | .retire _ _ => s.Ready
  | .reply => s.replies ≠ []
  | .dropInbox => s.Ready
  | .releaseCommands => s.stage = .unanswered ∧ s.replies = []
  | .releaseRoot => s.stage = .commandsReleased
  | .releaseScopes => s.stage = .rootReleased

def next (s : State R M c) : Action R M → State R M c
  | .open targets => match s.tryOpen targets with
    | .error _ => s
    | .ok i => { s with slots := Function.update s.slots i { s.slots i with
        book := (s.slots i).book.reset targets
        state := .opened } }
  | .enterRoot when batch =>
    if s.gateClosed then s else { s with phase := .rootAdmitted when batch }
  | .enterScope index generation when batch => match s.scope index generation with
    | none => s
    | some i => if (s.slots i).state ≠ .opened ∨ s.gateClosed then s
      else { s with phase := .scopeAdmitted i when batch }
  | .push => match s.phase with
    | .rootAdmitted when batch => match s.push s.root when batch with
      | .error _ => { s with phase := .idle }
      | .ok (sent, book) =>
        { s with
          staged := s.staged ++ [.root sent]
          root := book
          nextSeq := Seq.next s.nextSeq
          phase := .idle }
    | .scopeAdmitted i when batch => match s.push (s.slots i).book when batch with
      | .error _ => { s with phase := .idle }
      | .ok (sent, book) =>
        { s with
          staged := s.staged ++ [.scope (s.slotId i) sent]
          slots := Function.update s.slots i { s.slots i with book := book }
          nextSeq := Seq.next s.nextSeq
          phase := .idle }
    | _ => s
  | .close index generation => match State.slot? index with
    | none => s
    | some i => if (s.slots i).generation ≠ generation ∨ (s.slots i).state ≠ .opened then s
      else { s with
        staged := s.staged ++ [.close (s.slotId i)]
        slots := Function.update s.slots i { s.slots i with state := .closing } }
  | .publish => if s.gateClosed then s.discard
    else if s.staged.isEmpty then s else { s with phase := .entering }
  | .enterGate => if s.gateClosed then s.discard else { s with phase := .publishing }
  | .pushPass => s.pushPass
  | .read scopes => { s.recoverOrphans with phase := .reading scopes }
  | .popRoot => match s.phase with
    | .reading scopes => match s.rootAnswers.tryPop with
      | some (receipt, answers) =>
        { { s with rootAnswers := answers }.hearRoot receipt with phase := .idle }
      | none => { s with phase := if scopes then .readingScopes else .idle }
    | _ => s
  | .popScope => match s.scopeAnswers.tryPop with
    | some (reply, answers) =>
      { { s with scopeAnswers := answers }.hearScope reply with phase := .idle }
    | none => { s with phase := .idle }
  | .begin task => { s with task := task }
  | .pop => match s.commands.tryPop with
    | some (item, commands) =>
      { s with commands := commands, drained := s.drained ++ [item] }.route item
    | none => s.finish
  | .rootCall call =>
    let t := call.run s.rootDocket s.rootHand
    { s with rootDocket := t.docket, rootHand := t.hand, replies := t.replies.map .root }
  | .scopeCall index generation call => match s.level index generation with
    | none => s
    | some i => s.turnOne i
      ((s.scopes i).take i (call.run (s.scopes i).docket (s.scopes i).hand))
  | .retire index generation => match s.level index generation with
    | none => s
    | some i => s.turnOne i ((s.scopes i).retire i)
  | .reply => match s.replies with
    | [] => s
    | reply :: rest => { s with replies := rest }.pushReply reply
  | .dropInbox => { s with gateClosed := true, stage := .closed, task := .teardown }
  | .releaseCommands => { s with stage := .commandsReleased }
  | .releaseRoot => { s with stage := .rootReleased }
  | .releaseScopes => { s with stage := .gone }

def machine : Machine (State R M c) (Action R M) where
  Enabled := Enabled
  next := next

end ScopedChannel

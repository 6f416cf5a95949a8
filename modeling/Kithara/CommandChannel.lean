import Kithara.BoundedRing
import Kithara.CommandLevel
import Kithara.TransitionSystem

/-! A one-level command channel: the sender with its book of credits, the two rings, and the
inbox of the executor. Each ring operation is a step of its own, so the gate may close between a
sender's check and its push, and the sender may read between two replies of one call. -/
namespace CommandChannel

open BoundedRing CommandProtocol CommandDocket CommandLevel TransitionSystem

variable {P : Protocol} {capacity : ℕ}

variable (P) in
structure Pending where
  when : When P.Clock
  seq : ℕ
  basis : List (ℕ × Option ℕ)

variable (P) in
/-- The sender's account: credits, and the shifts it projects from what it has in flight. -/
structure Book where
  credits : ℕ
  targets : ℕ
  applied : List (Option ℕ)
  pending : List (Pending P)

namespace Book

def new (credits targets : ℕ) : Book P :=
  { credits := credits, targets := targets, applied := List.replicate targets none, pending := [] }

def admits (b : Book P) (batch : Batch P) : Bool :=
  batch.basis.all fun entry => P.index entry.1 < b.targets

def spend (b : Book P) (when : When P.Clock) (seq : ℕ) (basis : List (P.Target × Option ℕ)) :
    Book P :=
  let charged := { b with credits := b.credits - 1 }
  if basis.isEmpty then charged
  else
    let earlier (p : Pending P) : Bool := toLex (p.when, p.seq) < toLex (when, seq)
    { charged with pending := b.pending.takeWhile earlier ++
        { when := when, seq := seq, basis := basis.map fun entry => (P.index entry.1, entry.2) } ::
        b.pending.dropWhile earlier }

def basis (b : Book P) (target : P.Target) (when : When P.Clock) : Option ℕ :=
  if P.index target ≥ b.targets then none
  else
    let ledger := (b.pending.takeWhile fun p => p.when ≤ when).foldl (fun ledger p =>
      if p.basis.all fun entry => ledger[entry.1]? = some entry.2 then
        p.basis.foldl (fun ledger entry => ledger.set entry.1 (some p.seq)) ledger
      else ledger) b.applied
    (ledger[P.index target]?).join

def settle (b : Book P) (receipt : Receipt P) : Book P :=
  { b with
    credits := b.credits + 1
    pending := b.pending.filter fun p => p.seq ≠ receipt.seq
    applied := match receipt.outcome with
      | .applied _ _ => receipt.batch.basis.foldl (fun applied entry =>
          applied.modify (P.index entry.1) fun last => some (max (last.getD 0) receipt.seq))
          b.applied
      | .rejected _ => b.applied }

def reset (b : Book P) (targets : ℕ) : Book P :=
  { b with targets := targets, applied := b.applied.map fun _ => none, pending := [] }

end Book

variable (P) in
inductive SendError where
  | full (batch : Batch P)
  | target (batch : Batch P)
  | closed (batch : Batch P)

variable (P) in
structure Sender where
  next : ℕ
  book : Book P

namespace Sender

def push (s : Sender P) (commands : Ring (Sent P) capacity) (when : When P.Clock)
    (batch : Batch P) : Except (SendError P) (Sent P × Sender P × Ring (Sent P) capacity) :=
  if s.book.admits batch = false then .error (.target batch)
  else if s.book.credits = 0 then .error (.full batch)
  else if commands.isFull then .error (.full batch)
  else
    let sent : Sent P := { batch := batch, seq := s.next, when := when }
    match commands.tryPush sent with
    | none => .error (.full batch)
    | some commands' =>
      .ok (sent, { next := Seq.next s.next, book := s.book.spend when s.next batch.basis }, commands')

def settle (s : Sender P) (receipt : Receipt P) : Sender P :=
  { s with book := s.book.settle receipt }

end Sender

variable (P) in
/-- What the sender's thread is inside of: past the gate with a batch in hand, or in the midst of
reading, past an empty receipt ring or past the check that nobody fills it any more. -/
inductive SenderPhase where
  | idle
  | admitted (when : When P.Clock) (batch : Batch P)
  | emptied
  | orphaning

/-- How far the inbox is torn down. The commands' consumer goes before the receipts' producer. -/
inductive InboxStage where
  | live
  | closed
  | unanswered
  | unread
  | gone
  deriving DecidableEq

variable (P capacity) in
structure State where
  gateClosed : Bool
  commands : Ring (Sent P) capacity
  answers : Ring (Receipt P) capacity
  sender : Sender P
  phase : SenderPhase P
  stage : InboxStage
  docket : Docket P
  hand : Hand P
  replies : List (Receipt P)
  /-- What the sender's owner was told: the batches sent, and the receipts read. -/
  accepted : List (Sent P)
  answered : List (Receipt P)

def start (targets : ℕ) : State P capacity where
  gateClosed := false
  commands := .empty
  answers := .empty
  sender := { next := Seq.first, book := .new capacity targets }
  phase := .idle
  stage := .live
  docket := .new targets
  hand := .empty
  replies := []
  accepted := []
  answered := []

variable (P) in
inductive Action where
  | enter (when : When P.Clock) (batch : Batch P)
  | push
  | poll
  | checkHeld
  | popOrphan
  | drain
  | nextDue (start : P.Clock) (frames : ℕ)
  | nextDeferred
  | resume (seq : ℕ) (start moment : P.Clock)
  | complete (seq : ℕ) (data : P.Applied)
  | refuseTimed (refusal : P.Refusal)
  | apply (data : P.Applied)
  | refuse (refusal : P.Refusal)
  | defer
  | commit
  | park
  | drop
  | editHand (edit : List P.Command → List P.Command)
  | editCommitted (seq : ℕ) (edit : List P.Command → List P.Command)
  | reply
  | close
  | unanswer
  | releaseCommands
  | releaseAnswers

namespace State

def inHand (s : State P capacity) : Bool :=
  match s.hand with
  | .empty => false
  | _ => true

def holdsDue (s : State P capacity) : Bool :=
  match s.hand with
  | .due _ => true
  | _ => false

def holdsDeferred (s : State P capacity) : Bool :=
  match s.hand with
  | .deferred _ => true
  | _ => false

/-- The executor is between two calls, with nothing borrowed. -/
def Ready (s : State P capacity) : Prop :=
  s.stage = .live ∧ s.inHand = false ∧ s.replies = []

def take (s : State P capacity) (t : Turn P) : State P capacity :=
  { s with docket := t.docket, hand := t.hand, replies := t.replies }

def read (s : State P capacity) (receipt : Receipt P) : State P capacity :=
  { s with
    sender := s.sender.settle receipt
    phase := .idle
    answered := s.answered ++ [receipt] }

end State

def editHand (edit : List P.Command → List P.Command) : Hand P → Hand P
  | .empty => .empty
  | .due held => .due { held with commands := edit held.commands }
  | .deferred held => .deferred held

section

variable {τ : Type*} (label : Batch P → τ)

/-- An edit of a batch's commands that its label does not see. -/
def Unseen (edit : List P.Command → List P.Command) : Prop :=
  ∀ batch : Batch P, label { batch with commands := edit batch.commands } = label batch

def Enabled (s : State P capacity) : Action P → Prop
  | .enter _ _ => s.phase = .idle
  | .push => ∃ when batch, s.phase = .admitted when batch
  | .poll => s.phase = .idle
  | .checkHeld => s.phase = .emptied
  | .popOrphan => s.phase = .orphaning
  | .drain => (s.stage = .live ∨ s.stage = .closed) ∧ s.inHand = false ∧ s.replies = []
  | .nextDue _ _ => s.Ready
  | .nextDeferred => s.Ready
  | .resume _ _ _ => s.Ready
  | .complete _ _ => s.stage = .live ∧ s.holdsDeferred = false ∧ s.replies = []
  | .refuseTimed _ => s.Ready
  | .apply _ => s.stage = .live ∧ s.holdsDue = true ∧ s.replies = []
  | .refuse _ => s.stage = .live ∧ s.inHand = true ∧ s.replies = []
  | .defer => s.stage = .live ∧ s.holdsDue = true ∧ s.replies = []
  | .commit => s.stage = .live ∧ s.holdsDue = true ∧ s.replies = []
  | .park => s.stage = .live ∧ s.holdsDeferred = true ∧ s.replies = []
  | .drop => s.stage = .live ∧ s.inHand = true ∧ s.replies = []
  | .editHand edit => s.stage = .live ∧ s.holdsDue = true ∧ s.replies = [] ∧ Unseen label edit
  | .editCommitted _ edit =>
    s.stage = .live ∧ s.holdsDeferred = false ∧ s.replies = [] ∧ Unseen label edit
  | .reply => s.replies ≠ []
  | .close => s.Ready
  | .unanswer => s.stage = .closed ∧ s.replies = []
  | .releaseCommands => s.stage = .unanswered ∧ s.replies = []
  | .releaseAnswers => s.stage = .unread

end

def answerDue (s : State P capacity) (answer : Due P → Turn P) : State P capacity :=
  match s.hand with
  | .due held => s.take (answer held)
  | _ => s

def answerDeferred (s : State P capacity) (answer : Deferred P → Turn P) : State P capacity :=
  match s.hand with
  | .deferred held => s.take (answer held)
  | _ => s

/-- What the executor answers whichever batch it holds with. -/
def answerHand (s : State P capacity) (rejection : Rejection P) : State P capacity :=
  match s.hand with
  | .empty => s
  | .due held => s.take (held.answer s.docket rejection)
  | .deferred held => s.take (held.answer s.docket rejection)

def next (s : State P capacity) : Action P → State P capacity
  | .enter when batch => if s.gateClosed then s else { s with phase := .admitted when batch }
  | .push =>
    match s.phase with
    | .admitted when batch =>
      match s.sender.push s.commands when batch with
      | .error _ => { s with phase := .idle }
      | .ok (sent, sender, commands) =>
        { s with
          sender := sender
          commands := commands
          phase := .idle
          accepted := s.accepted ++ [sent] }
    | _ => s
  | .poll =>
    match s.answers.tryPop with
    | some (receipt, answers) => { s with answers := answers }.read receipt
    | none => { s with phase := .emptied }
  | .checkHeld => { s with phase := if s.stage = .gone then .orphaning else .idle }
  | .popOrphan =>
    match s.commands.tryPop with
    | some (sent, commands) => { s with commands := commands }.read sent.unanswered
    | none => { s with phase := .idle }
  | .drain =>
    match s.commands.tryPop with
    | some (sent, commands) => { s with commands := commands, docket := s.docket.insert sent }
    | none => s
  | .nextDue start frames => s.take (takeDue s.docket start frames)
  | .nextDeferred => s.take (takeDeferred s.docket)
  | .resume seq start moment => s.take (takeParked s.docket seq start moment)
  | .complete seq data => s.take (complete s.docket s.hand seq data)
  | .refuseTimed refusal => s.take (refuseTimed s.docket refusal)
  | .apply data => answerDue s fun held => held.apply s.docket data
  | .refuse refusal => answerHand s (.refused refusal)
  | .defer => answerDue s fun held => held.defer s.docket
  | .commit => answerDue s fun held => held.commit s.docket
  | .park => answerDeferred s fun held => held.park s.docket
  | .drop => answerHand s .unanswered
  | .editHand edit => { s with hand := editHand edit s.hand }
  | .editCommitted seq edit => { s with docket := CommandLevel.editCommitted s.docket seq edit }
  | .reply =>
    match s.replies with
    | [] => s
    | receipt :: rest =>
      match s.answers.tryPush receipt with
      | some answers => { s with answers := answers, replies := rest }
      | none => { s with replies := rest }
  | .close => { s with gateClosed := true, stage := .closed }
  | .unanswer => { s.take (unanswered s.docket) with stage := .unanswered }
  | .releaseCommands => { s with stage := .unread }
  | .releaseAnswers => { s with stage := .gone }

def machine {τ : Type*} (label : Batch P → τ) : Machine (State P capacity) (Action P) where
  Enabled := Enabled label
  next := next

end CommandChannel

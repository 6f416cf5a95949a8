import Mathlib.Data.List.Sort
import Kithara.CommandBlocks
import Kithara.CommandChannel

/-! A live configuration: its owner sends changes to the executor, keeps a copy of each until it is
answered, and reads the configuration the answers confirmed. The executor folds the changes into
a configuration of its own as their batches fall due. -/
namespace LiveConfigs

open BoundedRing CommandProtocol CommandDocket CommandLevel CommandBlocks CommandChannel Extraction
open TransitionSystem

/-- A configuration with live fields: a change passes the check of its field and assigns it. -/
structure LiveConfig where
  Config : Type
  Change : Type
  Error : Type
  validated : Config → Except Error Config
  check : Change → Except Error Change
  applyChange : Config → Change → Config

variable {C : LiveConfig} {P : Protocol} {capacity : ℕ}

variable (C P) in
/-- How one executor's commands carry the changes of a configuration. -/
structure Wiring where
  wrap : C.Change → P.Command
  unwrap : P.Command → Option C.Change
  unwrap_wrap : ∀ change, unwrap (wrap change) = some change

variable (C P) in
/-- A change in flight: the batch carrying it, its moment and the change. -/
structure InFlight where
  seq : ℕ
  when : When P.Clock
  change : C.Change

def InFlight.key (copy : InFlight C P) : When P.Clock ×ₗ ℕ := toLex (copy.when, copy.seq)

def folded (config : C.Config) (copies : List (InFlight C P)) : C.Config :=
  copies.foldl (fun config copy => C.applyChange config copy.change) config

variable (C P) in
structure Live where
  config : C.Config
  inFlight : List (InFlight C P)

variable (C P) in
inductive LiveError where
  | invalid (error : C.Error)
  | send (error : SendError P)

namespace Live

def new (config : C.Config) : Except C.Error (Live C P) :=
  (C.validated config).map fun config => { config := config, inFlight := [] }

def sorted (live : Live C P) : List (InFlight C P) :=
  live.inFlight.insertionSort fun a b => a.key ≤ b.key

def abandon (live : Live C P) : Bool × Live C P :=
  (!live.inFlight.isEmpty, { config := folded live.config live.sorted, inFlight := [] })

def projected (live : Live C P) : C.Config := folded live.config live.sorted

def track (live : Live C P) (seq : ℕ) (when : When P.Clock) (change : C.Change) : Live C P :=
  { live with inFlight := live.inFlight ++ [{ seq := seq, when := when, change := change }] }

def send {σ : Type} (live : Live C P)
    (port : When P.Clock → Batch P → Except (SendError P) (ℕ × σ)) (when : When P.Clock)
    (change : C.Change) (wrap : C.Change → P.Command) :
    Except (LiveError C P) (ℕ × Live C P × σ) :=
  match C.check change with
  | .error error => .error (.invalid error)
  | .ok change =>
    match port when { basis := [], commands := [wrap change] } with
    | .error error => .error (.send error)
    | .ok (seq, after) => .ok (seq, live.track seq when change, after)

def applies : Outcome P → Bool
  | .applied _ _ => true
  | .rejected _ => false

def settle (live : Live C P) (receipt : Receipt P) : Option (InFlight C P) × Live C P :=
  match extract (fun copy => decide (copy.seq = receipt.seq)) live.inFlight with
  | none => (none, live)
  | some (copy, rest) =>
    (some copy, {
      config := if applies receipt.outcome then C.applyChange live.config copy.change
        else live.config
      inFlight := rest })

end Live

variable (C P capacity) in
/-- An owner with its sender, the two rings, and the executor with the configuration it renders
with. A receipt stands for each credit spent, so their ring has room for all of them. -/
structure System where
  live : Live C P
  sender : Sender P
  commands : Ring (Sent P) capacity
  receipts : List (Receipt P)
  docket : Docket P
  executor : C.Config

variable (C P) in
inductive Action where
  | send (when : When P.Clock) (change : C.Change)
  | block (start : P.Clock) (frames : ℕ) (data : ℕ → P.Applied)
  | settle

def render (W : Wiring C P) (config : C.Config) (due : Due P) : C.Config :=
  due.commands.foldl (fun config command =>
    match W.unwrap command with
    | some change => C.applyChange config change
    | none => config) config

def applyingAll (data : ℕ → P.Applied) (n : ℕ) : Handling P := ⟨[], id, .applied (data n)⟩

namespace System

/-- The executor is built with the configuration the owner checked. -/
def start (live : Live C P) (targets : ℕ) : System C P capacity where
  live := live
  sender := { next := Seq.first, book := .new capacity targets }
  commands := .empty
  receipts := []
  docket := .new targets
  executor := live.config

def send (W : Wiring C P) (s : System C P capacity) (when : When P.Clock) (change : C.Change) :
    System C P capacity :=
  let port (when : When P.Clock) (batch : Batch P) :=
    (s.sender.push s.commands when batch).map fun r => (r.1.seq, r.2)
  match s.live.send port when change W.wrap with
  | .error _ => s
  | .ok (_, live, sender, commands) =>
    { s with live := live, sender := sender, commands := commands }

def block (W : Wiring C P) (s : System C P capacity) (start : P.Clock) (frames : ℕ)
    (data : ℕ → P.Applied) : System C P capacity :=
  let r := runBlock s.docket s.commands.items start frames (applyingAll data)
  { s with
    commands := .empty
    receipts := s.receipts ++ r.replies
    docket := r.docket
    executor := (dues r.steps).foldl (render W) s.executor }

def settle (s : System C P capacity) : System C P capacity :=
  match s.receipts with
  | [] => s
  | receipt :: rest =>
    { s with
      live := (s.live.settle receipt).2
      sender := s.sender.settle receipt
      receipts := rest }

def Enabled (_ : System C P capacity) : Action C P → Prop
  | .send when _ => when ≠ .deferred
  | .block _ _ _ => True
  | .settle => True

def next (W : Wiring C P) (s : System C P capacity) : Action C P → System C P capacity
  | .send when change => s.send W when change
  | .block start frames data => s.block W start frames data
  | .settle => s.settle

def machine (W : Wiring C P) : Machine (System C P capacity) (Action C P) where
  Enabled := Enabled
  next := next W

end System

end LiveConfigs

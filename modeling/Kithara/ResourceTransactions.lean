import Kithara.TransitionSystem
import Mathlib.Logic.Function.Basic
import Mathlib.Data.List.Basic
import Mathlib.Data.Nat.Notation

/-! One transaction at a time for each resource: a flag, a count of participants and a notifier in
a cell that a registry holds while it is used. Each atomic operation of a task is a step of its own;
a task may be cancelled wherever it waits. -/
namespace ResourceTransactions

open TransitionSystem

abbrev TaskId := ℕ
abbrev CellId := ℕ

/-- Where a task stands in `run`. Its last four stages are those of the drop. -/
inductive Stage where
  | attempting
  | polling
  | asleep
  | notified
  | woken
  | holding
  | checking
  | notifying
  | leaving
  | gone
  deriving DecidableEq, Repr

/-- `permit` is the one notification that the notifier stores. -/
structure TransactionCell where
  held : Bool
  participants : ℕ
  permit : Bool
  deriving DecidableEq

def TransactionCell.default : TransactionCell := ⟨false, 1, false⟩

structure ResourceTransaction (Key : Type*) where
  key : Key
  cell : CellId
  stage : Stage
  deriving DecidableEq

/-- `registry` is the map of the index; `memory` holds every cell there was, `fresh` being the
next. A task is its position in `tasks`. -/
structure ResourceTransactionIndex (Key : Type*) where
  registry : Key → Option CellId
  memory : CellId → TransactionCell
  fresh : CellId
  tasks : List (ResourceTransaction Key)

variable {Key : Type*} [DecidableEq Key]

inductive Action (Key : Type*) where
  | enter (key : Key)
  | attempt (task : TaskId)
  | poll (task : TaskId)
  | wake (task : TaskId)
  | release (task : TaskId)
  | cancel (task : TaskId) (next : Option TaskId)
  | check (task : TaskId)
  | notify (task : TaskId) (next : Option TaskId)
  | leave (task : TaskId)
  deriving DecidableEq

namespace ResourceTransactionIndex

def start : ResourceTransactionIndex Key := ⟨fun _ => none, fun _ => .default, 0, []⟩

def edit (s : ResourceTransactionIndex Key) (cell : CellId)
    (f : TransactionCell → TransactionCell) : ResourceTransactionIndex Key :=
  { s with memory := Function.update s.memory cell (f (s.memory cell)) }

def moveTo (s : ResourceTransactionIndex Key) (task : TaskId) (stage : Stage) :
    ResourceTransactionIndex Key :=
  { s with tasks := s.tasks.modify task fun transaction => { transaction with stage := stage } }

def onTask (s : ResourceTransactionIndex Key) (task : TaskId)
    (f : ResourceTransaction Key → ResourceTransactionIndex Key) : ResourceTransactionIndex Key :=
  match s.tasks[task]? with
  | none => s
  | some transaction => f transaction

def enter (s : ResourceTransactionIndex Key) (key : Key) : ResourceTransactionIndex Key :=
  match s.registry key with
  | some cell =>
    { s.edit cell fun c => { c with participants := c.participants + 1 } with
      tasks := s.tasks ++ [⟨key, cell, .attempting⟩] }
  | none =>
    { registry := Function.update s.registry key (some s.fresh)
      memory := Function.update s.memory s.fresh .default
      fresh := s.fresh + 1
      tasks := s.tasks ++ [⟨key, s.fresh, .attempting⟩] }

def attempt (s : ResourceTransactionIndex Key) (task : TaskId) : ResourceTransactionIndex Key :=
  s.onTask task fun transaction =>
    if (s.memory transaction.cell).held then s.moveTo task .polling
    else (s.edit transaction.cell fun c => { c with held := true }).moveTo task .holding

def poll (s : ResourceTransactionIndex Key) (task : TaskId) : ResourceTransactionIndex Key :=
  s.onTask task fun transaction =>
    if (s.memory transaction.cell).permit then
      (s.edit transaction.cell fun c => { c with permit := false }).moveTo task .woken
    else s.moveTo task .asleep

def notifyOne (s : ResourceTransactionIndex Key) (cell : CellId) :
    Option TaskId → ResourceTransactionIndex Key
  | some next => s.moveTo next .notified
  | none => s.edit cell fun c => { c with permit := true }

def release (s : ResourceTransactionIndex Key) (task : TaskId) : ResourceTransactionIndex Key :=
  s.onTask task fun transaction =>
    (s.edit transaction.cell fun c => { c with held := false }).moveTo task .notifying

/-- A waiter is dropped: it passes on a notification that it has not consumed. -/
def cancel (s : ResourceTransactionIndex Key) (task : TaskId) (next : Option TaskId) :
    ResourceTransactionIndex Key :=
  s.onTask task fun transaction =>
    (if transaction.stage = .notified then s.notifyOne transaction.cell next else s).moveTo task
      .checking

def check (s : ResourceTransactionIndex Key) (task : TaskId) : ResourceTransactionIndex Key :=
  s.onTask task fun transaction =>
    s.moveTo task (if (s.memory transaction.cell).held then .leaving else .notifying)

def notify (s : ResourceTransactionIndex Key) (task : TaskId) (next : Option TaskId) :
    ResourceTransactionIndex Key :=
  s.onTask task fun transaction => (s.notifyOne transaction.cell next).moveTo task .leaving

def leave (s : ResourceTransactionIndex Key) (task : TaskId) : ResourceTransactionIndex Key :=
  s.onTask task fun transaction =>
    (if s.registry transaction.key = some transaction.cell then
      let left := s.edit transaction.cell fun c => { c with participants := c.participants - 1 }
      if (s.memory transaction.cell).participants = 1 then
        { left with registry := Function.update s.registry transaction.key none }
      else left
    else s).moveTo task .gone

def At (s : ResourceTransactionIndex Key) (task : TaskId) (stage : Stage) : Prop :=
  ∃ transaction ∈ s.tasks[task]?, transaction.stage = stage

/-- A notification of the cell may go to `next`: to a waiter if there is one. -/
def Reaches (s : ResourceTransactionIndex Key) (cell : CellId) : Option TaskId → Prop
  | some next => ∃ transaction ∈ s.tasks[next]?,
      transaction.cell = cell ∧ transaction.stage = .asleep
  | none => ∀ transaction ∈ s.tasks, transaction.cell = cell → transaction.stage ≠ .asleep

end ResourceTransactionIndex

open ResourceTransactionIndex in
def machine : Machine (ResourceTransactionIndex Key) (Action Key) where
  Enabled s
    | .enter _ => True
    | .attempt task => s.At task .attempting ∨ s.At task .woken
    | .poll task => s.At task .polling
    | .wake task => s.At task .notified
    | .release task => s.At task .holding
    | .cancel task next => s.At task .asleep ∨
        ∃ transaction ∈ s.tasks[task]?, transaction.stage = .notified ∧
          s.Reaches transaction.cell next
    | .check task => s.At task .checking
    | .notify task next => ∃ transaction ∈ s.tasks[task]?, transaction.stage = .notifying ∧
        s.Reaches transaction.cell next
    | .leave task => s.At task .leaving
  next s
    | .enter key => s.enter key
    | .attempt task => s.attempt task
    | .poll task => s.poll task
    | .wake task => s.moveTo task .woken
    | .release task => s.release task
    | .cancel task next => s.cancel task next
    | .check task => s.check task
    | .notify task next => s.notify task next
    | .leave task => s.leave task

end ResourceTransactions

import Mathlib.Algebra.Group.Nat.Defs
import Mathlib.Order.WithBot
import Mathlib.Data.Prod.Lex

/-! What the sender and the executor of a command channel exchange: batches with their basis,
numbered at send, and the receipts that carry them back. -/
namespace CommandProtocol

/-- The types one executor speaks. A target is known by its position, and the clock only by
its order and the frames it counts. -/
structure Protocol where
  Applied : Type
  Clock : Type
  Command : Type
  Refusal : Type
  Target : Type
  [clockOrder : LinearOrder Clock]
  index : Target → ℕ
  framesSince : Clock → Clock → Option ℕ

attribute [instance] Protocol.clockOrder

namespace Seq

def first : ℕ := 1

/-- The number saturates at the end of its 64-bit range. -/
def next (seq : ℕ) : ℕ := min (seq + 1) (2 ^ 64 - 1)

end Seq

inductive When (T : Type) where
  | next
  | timed (moment : T)
  | deferred
  deriving DecidableEq

namespace When

variable {T : Type}

def rank : When T → WithBot (WithTop T)
  | .next => ⊥
  | .timed moment => ((moment : WithTop T) : WithBot (WithTop T))
  | .deferred => ((⊤ : WithTop T) : WithBot (WithTop T))

theorem rank_injective : Function.Injective (@rank T) := by
  intro a b h
  cases a with
  | next => cases b with
    | next => rfl
    | timed m => exact absurd h (WithBot.coe_ne_bot.symm)
    | deferred => exact absurd h (WithBot.coe_ne_bot.symm)
  | timed m => cases b with
    | next => exact absurd h WithBot.coe_ne_bot
    | timed m' =>
      have hm : m = m' := WithTop.coe_injective (WithBot.coe_injective h)
      rw [hm]
    | deferred => exact absurd (WithBot.coe_injective h) WithTop.coe_ne_top
  | deferred => cases b with
    | next => exact absurd h WithBot.coe_ne_bot
    | timed m => exact absurd (WithBot.coe_injective h) WithTop.coe_ne_top.symm
    | deferred => rfl

instance [LinearOrder T] : LinearOrder (When T) := LinearOrder.lift' rank rank_injective

end When

variable (P : Protocol)

structure Batch where
  basis : List (P.Target × Option ℕ)
  commands : List P.Command

inductive Rejection where
  | late
  | stale
  | refused (refusal : P.Refusal)
  | unanswered

inductive Outcome where
  | applied (moment : P.Clock) (data : P.Applied)
  | rejected (rejection : Rejection P)

structure Receipt where
  batch : Batch P
  outcome : Outcome P
  seq : ℕ

structure Sent where
  batch : Batch P
  seq : ℕ
  when : When P.Clock

variable {P}

/-- Execution order: earlier moments first, then send order. -/
def Sent.key (sent : Sent P) : When P.Clock ×ₗ ℕ := toLex (sent.when, sent.seq)

def Sent.reject (sent : Sent P) (rejection : Rejection P) : Receipt P :=
  { batch := sent.batch, outcome := .rejected rejection, seq := sent.seq }

def Sent.unanswered (sent : Sent P) : Receipt P := sent.reject .unanswered

/-- A batch by its number and what `label` keeps of it. -/
def Sent.tag {τ : Type*} (label : Batch P → τ) (sent : Sent P) : ℕ × τ :=
  (sent.seq, label sent.batch)

def Receipt.tag {τ : Type*} (label : Batch P → τ) (receipt : Receipt P) : ℕ × τ :=
  (receipt.seq, label receipt.batch)

@[simp] theorem tag_reject {τ : Type*} (label : Batch P → τ) (sent : Sent P)
    (rejection : Rejection P) : (sent.reject rejection).tag label = sent.tag label := rfl

end CommandProtocol

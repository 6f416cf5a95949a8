import Mathlib.Data.List.Basic

/-! Programs as sequences of atomic operations, each with its answer, and weakest preconditions of
them over a ledger: what the program itself may rely on while other programs run in between. A rule
says when an operation may be called, which answers the rest of the system can give, and what the
caller's own ledger becomes. -/
namespace AtomicPrograms

inductive Prog (Op : Type) (Ans : Op → Type) (β : Type) where
  | ret (b : β)
  | call (op : Op) (k : Ans op → Prog Op Ans β)

variable {Op : Type} {Ans : Op → Type} {L ι σ β γ : Type}

def Prog.bind : Prog Op Ans β → (β → Prog Op Ans γ) → Prog Op Ans γ
  | .ret b, f => f b
  | .call op k, f => .call op fun ans => (k ans).bind f

instance : Monad (Prog Op Ans) where
  pure := .ret
  bind := .bind

def Prog.op (op : Op) : Prog Op Ans (Ans op) :=
  .call op .ret

/-- How one round of a loop ends: go on, break, or return from the function the loop is in. -/
inductive Flow (σ β : Type) where
  | next (s : σ)
  | stop (s : σ)
  | found (b : β)

def forEach (body : ι → σ → Prog Op Ans (Flow σ β)) : List ι → σ → Prog Op Ans (σ ⊕ β)
  | [], s => pure (.inl s)
  | x :: xs, s => body x s >>= fun
    | .next s' => forEach body xs s'
    | .stop s' => pure (.inl s')
    | .found b => pure (.inr b)

structure Rules (Op : Type) (Ans : Op → Type) (L : Type) where
  pre : L → Op → Prop
  answers : L → (op : Op) → Ans op → Prop
  after : L → (op : Op) → Ans op → L

variable (R : Rules Op Ans L)

/-- From the ledger `l`, whatever the answers are, every call meets its precondition and the result
meets `Q`. -/
def Rules.Meets (Q : β → L → Prop) : Prog Op Ans β → L → Prop
  | .ret b, l => Q b l
  | .call op k, l =>
    R.pre l op ∧ ∀ ans, R.answers l op ans → Rules.Meets Q (k ans) (R.after l op ans)

/-- What a round of a loop leaves: the invariant when it goes on, the result otherwise. -/
def Flow.Leads (I : σ → L → Prop) (Q : σ ⊕ β → L → Prop) : Flow σ β → L → Prop
  | .next s, l => I s l
  | .stop s, l => Q (.inl s) l
  | .found b, l => Q (.inr b) l

variable {R}

theorem meets_mono {Q Q' : β → L → Prop} (himp : ∀ b l, Q b l → Q' b l)
    {prog : Prog Op Ans β} {l : L} (h : R.Meets Q prog l) : R.Meets Q' prog l := by
  induction prog generalizing l with
  | ret b => exact himp b l h
  | call op k ih => exact ⟨h.1, fun ans ha => ih ans (h.2 ans ha)⟩

theorem meets_bind {Q : γ → L → Prop} {prog : Prog Op Ans β} {f : β → Prog Op Ans γ} {l : L}
    (h : R.Meets (fun b l' => R.Meets Q (f b) l') prog l) : R.Meets Q (prog >>= f) l := by
  induction prog generalizing l with
  | ret b => exact h
  | call op k ih => exact ⟨h.1, fun ans ha => ih ans (h.2 ans ha)⟩

theorem meets_forEach {I : List ι → σ → L → Prop} {Q : σ ⊕ β → L → Prop}
    {body : ι → σ → Prog Op Ans (Flow σ β)}
    (hround : ∀ x xs s l, I (x :: xs) s l → R.Meets (Flow.Leads (I xs) Q) (body x s) l)
    (hend : ∀ s l, I [] s l → Q (.inl s) l) {xs : List ι} {s : σ} {l : L} (h : I xs s l) :
    R.Meets Q (forEach body xs s) l := by
  induction xs generalizing s l with
  | nil => exact hend s l h
  | cons x xs ih =>
    refine meets_bind (meets_mono ?_ (hround x xs s l h))
    intro flow l' hflow
    cases flow with
    | next s' => exact ih hflow
    | stop s' => exact hflow
    | found b => exact hflow

end AtomicPrograms

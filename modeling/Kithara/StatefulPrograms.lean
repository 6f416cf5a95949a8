import Mathlib.Data.List.Basic
import Mathlib.Order.Defs.Unbundled

/-! Programs over a state that may fail. A program that fails keeps the state it reached, as a
method does that returns early: nothing is rolled back. The rules follow a reflexive and transitive
relation between the first and the last state along every path, the failing ones included. -/
namespace StatefulPrograms

/-- From a state, an answer or an error, and the state it leaves. -/
def Program (σ ε α : Type) : Type := σ → Except ε α × σ

namespace Program

variable {σ ε ε' α β : Type}

instance : Monad (Program σ ε) where
  pure a s := (.ok a, s)
  bind p f s := match p s with
    | (.ok a, s') => f a s'
    | (.error e, s') => (.error e, s')

def read (f : σ → α) : Program σ ε α := fun s => (.ok (f s), s)

def update (f : σ → σ) : Program σ ε Unit := fun s => (.ok (), f s)

/-- Answers and changes the state in one go. -/
def step (f : σ → Except ε α × σ) : Program σ ε α := f

def fail (e : ε) : Program σ ε α := fun s => (.error e, s)

/-- The value, or the error when there is none. -/
def require (e : ε) : Option α → Program σ ε α
  | some a => pure a
  | none => fail e

def ofExcept : Except ε α → Program σ ε α
  | .ok a => pure a
  | .error e => fail e

/-- The program's outcome as a value; it no longer fails. -/
def attempt (p : Program σ ε α) : Program σ ε' (Except ε α) := fun s => (.ok (p s).1, (p s).2)

def mapError (f : ε → ε') (p : Program σ ε α) : Program σ ε' α := fun s =>
  ((p s).1.mapError f, (p s).2)

def whenever (c : Prop) [Decidable c] (p : Program σ ε Unit) : Program σ ε Unit :=
  if c then p else pure ()

/-- The body for each element in order; the first failure ends the loop. -/
def forEach (body : α → Program σ ε Unit) : List α → Program σ ε Unit
  | [] => pure ()
  | a :: as => do
    body a
    forEach body as

/-- A loop with one loop variable. -/
def forFold (body : β → α → Program σ ε β) : β → List α → Program σ ε β
  | b, [] => pure b
  | b, a :: as => do
    let b' ← body b a
    forFold body b' as

@[simp] theorem read_bind (f : σ → α) (k : α → Program σ ε β) (s : σ) :
    (read f >>= k) s = k (f s) s := rfl

@[simp] theorem update_bind (f : σ → σ) (k : Unit → Program σ ε β) (s : σ) :
    (update f >>= k) s = k () (f s) := rfl

@[simp] theorem pure_bind (a : α) (k : α → Program σ ε β) (s : σ) :
    ((pure a : Program σ ε α) >>= k) s = k a s := rfl

theorem bind_ok {p : Program σ ε α} {s s' : σ} {a : α} (h : p s = (.ok a, s'))
    (k : α → Program σ ε β) : (p >>= k) s = k a s' := by
  change (match p s with
    | (.ok a, s') => k a s'
    | (.error e, s') => (.error e, s')) = k a s'
  rw [h]

theorem bind_error {p : Program σ ε α} {s s' : σ} {e : ε} (h : p s = (.error e, s'))
    (k : α → Program σ ε β) : (p >>= k) s = (.error e, s') := by
  change (match p s with
    | (.ok a, s') => k a s'
    | (.error e, s') => (.error e, s')) = (.error e, s')
  rw [h]

theorem bind_run {p : Program σ ε α} {k : α → Program σ ε β} {s s' : σ} {b : β}
    (h : (p >>= k) s = (.ok b, s')) : ∃ a s₁, p s = (.ok a, s₁) ∧ k a s₁ = (.ok b, s') := by
  rcases hrun : p s with ⟨_ | a, s₁⟩
  · rw [bind_error hrun] at h
    cases h
  · rw [bind_ok hrun] at h
    exact ⟨a, s₁, rfl, h⟩

theorem mapError_run {f : ε → ε'} {p : Program σ ε α} {s s' : σ} {a : α}
    (h : mapError f p s = (.ok a, s')) : p s = (.ok a, s') := by
  rcases hrun : p s with ⟨_ | a, s₁⟩
  · rw [mapError, hrun] at h
    cases h
  · rw [mapError, hrun] at h
    obtain ⟨hok, rfl⟩ := Prod.mk.inj h
    cases hok
    rfl

theorem attempt_run {p : Program σ ε α} {s s' : σ} {outcome : Except ε α}
    (h : (attempt p : Program σ ε' (Except ε α)) s = (.ok outcome, s')) : p s = (outcome, s') := by
  cases h
  rfl

theorem require_run {e : ε} {value : Option α} {s s' : σ} {a : α}
    (h : require e value s = (.ok a, s')) : value = some a ∧ s' = s := by
  cases value with
  | none => cases h
  | some a => cases h; exact ⟨rfl, rfl⟩

end Program

open Program

variable {σ ε ε' α β : Type} {R : σ → σ → Prop}

/-- Run from `s`, the program leaves a state that `R` relates to `s`, whatever its outcome. -/
def Leads (R : σ → σ → Prop) (p : Program σ ε α) (s : σ) : Prop := R s (p s).2

def Keeps (R : σ → σ → Prop) (p : Program σ ε α) : Prop := ∀ s, Leads R p s

theorem Keeps.mono {S : σ → σ → Prop} (hRS : ∀ s s', R s s' → S s s') {p : Program σ ε α}
    (h : Keeps R p) : Keeps S p :=
  fun s => hRS s _ (h s)

theorem keeps_update {f : σ → σ} (h : ∀ s, R s (f s)) : Keeps R (update f : Program σ ε Unit) := h

theorem keeps_attempt {p : Program σ ε α} (hp : Keeps R p) :
    Keeps R (attempt p : Program σ ε' (Except ε α)) := hp

theorem keeps_mapError {p : Program σ ε α} (f : ε → ε') (hp : Keeps R p) :
    Keeps R (mapError f p) := hp

theorem leads_read_bind {f : σ → α} {k : α → Program σ ε β} {s : σ} (hk : Leads R (k (f s)) s) :
    Leads R (read f >>= k) s :=
  hk

theorem keeps_ite {c : Prop} [Decidable c] {p p' : Program σ ε α} (hp : Keeps R p)
    (hp' : Keeps R p') : Keeps R (if c then p else p') := by
  split
  case isTrue => exact hp
  case isFalse => exact hp'

section Still

variable [Std.Refl R]

theorem leads_pure (a : α) (s : σ) : Leads R (pure a : Program σ ε α) s := Std.Refl.refl s

theorem keeps_pure (a : α) : Keeps R (pure a : Program σ ε α) := leads_pure a

theorem keeps_read (f : σ → α) : Keeps R (read f : Program σ ε α) := fun s => Std.Refl.refl s

theorem keeps_fail (e : ε) : Keeps R (fail e : Program σ ε α) := fun s => Std.Refl.refl s

theorem keeps_require (e : ε) (value : Option α) : Keeps R (require e value) := by
  cases value with
  | none => exact keeps_fail e
  | some a => exact keeps_pure a

/-- What was required is there for the rest. -/
theorem leads_require_bind {e : ε} {value : Option α} {k : α → Program σ ε β} {s : σ}
    (hk : ∀ a, value = some a → Leads R (k a) s) : Leads R (require e value >>= k) s := by
  cases value with
  | none => exact Std.Refl.refl s
  | some a => exact hk a rfl

theorem keeps_ofExcept (outcome : Except ε α) : Keeps R (ofExcept outcome : Program σ ε α) := by
  cases outcome with
  | error e => exact keeps_fail e
  | ok a => exact keeps_pure a

theorem keeps_whenever {c : Prop} [Decidable c] {p : Program σ ε Unit} (hp : c → Keeps R p) :
    Keeps R (whenever c p) := by
  unfold whenever
  split
  case isTrue hc => exact hp hc
  case isFalse => exact keeps_pure ()

end Still

/-- The bind rule: the rest is looked at only from where the first program succeeds. -/
theorem leads_bind [IsTrans σ R] {p : Program σ ε α} {k : α → Program σ ε β} {s : σ}
    (hp : Leads R p s) (hk : ∀ a s', p s = (.ok a, s') → Leads R (k a) s') :
    Leads R (p >>= k) s := by
  rcases hrun : p s with ⟨_ | a, s'⟩
  · rw [Leads, bind_error hrun]
    rwa [Leads, hrun] at hp
  · rw [Leads, bind_ok hrun]
    rw [Leads, hrun] at hp
    exact IsTrans.trans _ _ _ hp (hk a s' hrun)

theorem keeps_bind [IsTrans σ R] {p : Program σ ε α} {k : α → Program σ ε β} (hp : Keeps R p)
    (hk : ∀ a, Keeps R (k a)) : Keeps R (p >>= k) :=
  fun s => leads_bind (hp s) fun a s' _ => hk a s'

theorem keeps_forEach [Std.Refl R] [IsTrans σ R] {body : α → Program σ ε Unit}
    (hbody : ∀ a, Keeps R (body a)) : ∀ as, Keeps R (forEach body as)
  | [] => keeps_pure ()
  | a :: as => keeps_bind (hbody a) fun _ => keeps_forEach hbody as

theorem keeps_forFold [Std.Refl R] [IsTrans σ R] {body : β → α → Program σ ε β}
    (hbody : ∀ b a, Keeps R (body b a)) : ∀ (as : List α) (b : β), Keeps R (forFold body b as)
  | [], b => keeps_pure b
  | a :: as, b => keeps_bind (hbody b a) fun b' => keeps_forFold hbody as b'

end StatefulPrograms

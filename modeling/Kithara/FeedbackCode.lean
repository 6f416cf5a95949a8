import Mathlib.Logic.Equiv.Defs
import Mathlib.Data.Nat.Notation

/-! Codes with ciphertext feedback: a symbol goes through a permutation that the running state
chooses, and the state is then fed with its position and the symbol that was sent. The two
directions carry one state, since both know what was sent. -/
namespace FeedbackCode

variable {σ α : Type*}

structure Code (σ α : Type*) where
  /-- The state that the symbol at a position is sent with. -/
  enter : σ → ℕ → σ
  perm : σ → Equiv.Perm α
  /-- The state after a symbol was sent. -/
  feed : σ → α → σ

namespace Code

variable (C : Code σ α)

def encodeFrom (s : σ) (i : ℕ) : List α → List α
  | [] => []
  | a :: as =>
    let t := C.enter s i
    let sent := C.perm t a
    sent :: encodeFrom (C.feed t sent) (i + 1) as

def decodeFrom (s : σ) (i : ℕ) : List α → List α
  | [] => []
  | sent :: as =>
    let t := C.enter s i
    (C.perm t).symm sent :: decodeFrom (C.feed t sent) (i + 1) as

/-- The state after a whole message was sent. -/
def stateAfter (s : σ) (i : ℕ) : List α → σ
  | [] => s
  | sent :: as => stateAfter (C.feed (C.enter s i) sent) (i + 1) as

variable {C} {s : σ} {i : ℕ}

theorem length_encodeFrom (as : List α) : (C.encodeFrom s i as).length = as.length := by
  induction as generalizing s i with
  | nil => rfl
  | cons a as ih => exact congrArg Nat.succ ih

theorem length_decodeFrom (as : List α) : (C.decodeFrom s i as).length = as.length := by
  induction as generalizing s i with
  | nil => rfl
  | cons sent as ih => exact congrArg Nat.succ ih

theorem decodeFrom_encodeFrom (as : List α) : C.decodeFrom s i (C.encodeFrom s i as) = as := by
  induction as generalizing s i with
  | nil => rfl
  | cons a as ih =>
    simp only [encodeFrom, decodeFrom]
    rw [Equiv.symm_apply_apply, ih]

theorem encodeFrom_decodeFrom (as : List α) : C.encodeFrom s i (C.decodeFrom s i as) = as := by
  induction as generalizing s i with
  | nil => rfl
  | cons sent as ih =>
    simp only [encodeFrom, decodeFrom]
    rw [Equiv.apply_symm_apply, ih]

theorem decodeFrom_append (as bs : List α) :
    C.decodeFrom s i (as ++ bs) =
      C.decodeFrom s i as ++ C.decodeFrom (C.stateAfter s i as) (i + as.length) bs := by
  induction as generalizing s i with
  | nil => rfl
  | cons sent as ih =>
    have hlen : i + (sent :: as).length = i + 1 + as.length := by
      rw [List.length_cons]
      omega
    simp only [List.cons_append, decodeFrom, stateAfter]
    rw [ih, hlen]

/-- Decoding is causal: what a prefix decodes to does not depend on what follows it. -/
theorem decodeFrom_take (n : ℕ) (as : List α) :
    C.decodeFrom s i (as.take n) = (C.decodeFrom s i as).take n := by
  have hsplit := decodeFrom_append (C := C) (s := s) (i := i) (as.take n) (as.drop n)
  rw [List.take_append_drop] at hsplit
  have hlen : (C.decodeFrom s i (as.take n)).length = min n as.length := by
    rw [length_decodeFrom, List.length_take]
  rcases Nat.le_total n as.length with hn | hn
  · rw [hsplit, List.take_left' (by omega)]
  · rw [List.take_of_length_le hn, List.take_of_length_le (by rw [length_decodeFrom]; exact hn)]

theorem decodeFrom_eq_iff (as bs : List α) :
    C.decodeFrom s i bs = as ↔ bs = C.encodeFrom s i as := by
  constructor
  · intro h
    rw [← h, encodeFrom_decodeFrom]
  · intro h
    rw [h, decodeFrom_encodeFrom]

end Code

end FeedbackCode

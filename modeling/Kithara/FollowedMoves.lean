import Kithara.StatefulPrograms
import Kithara.TransitionSystem

/-! A concrete state seen as the state of an abstract machine. What the concrete side does in one go
follows a trace of permitted moves from every state in which the machine's invariant holds. Such
steps compose, so the rules for stateful programs apply to them, and a run of the concrete side is
one trace of the machine. -/
namespace FollowedMoves

open TransitionSystem

structure Invariant {τ α : Type*} (M : Machine τ α) where
  Holds : τ → Prop
  step : ∀ t a, Holds t → M.Enabled t a → Holds (M.next t a)

variable {σ : Type*} {τ α κ : Type*} {M : Machine τ α}

theorem invariant_trace (I : Invariant M) {t : τ} {moves : List α} (h : I.Holds t)
    (hv : M.ValidTrace t moves) : I.Holds (M.runTrace t moves) :=
  reachable_invariant I.step h ⟨moves, hv, rfl⟩

/-- From the one state to the other by moves that `A` permits. -/
def Follows (I : Invariant M) (abs : σ → τ) (A : α → Prop) (s s' : σ) : Prop :=
  I.Holds (abs s) → ∃ moves, (∀ a ∈ moves, A a) ∧ M.ValidTrace (abs s) moves ∧
    abs s' = M.runTrace (abs s) moves

variable {I : Invariant M} {abs : σ → τ} {A B : α → Prop} {s s' s'' : σ}

theorem follows_of_eq (h : abs s' = abs s) : Follows I abs A s s' :=
  fun _ => ⟨[], fun _ ha => absurd ha List.not_mem_nil, trivial, h⟩

theorem follows_move {a : α} (hA : A a) (he : I.Holds (abs s) → M.Enabled (abs s) a)
    (h : I.Holds (abs s) → abs s' = M.next (abs s) a) : Follows I abs A s s' :=
  fun hI => ⟨[a], fun b hb => by rwa [List.mem_singleton.mp hb], ⟨he hI, trivial⟩, h hI⟩

theorem follows_trans (h : Follows I abs A s s') (h' : Follows I abs A s' s'') :
    Follows I abs A s s'' := fun hI => by
  obtain ⟨moves, hA, hv, heq⟩ := h hI
  obtain ⟨moves', hA', hv', heq'⟩ := h' (heq ▸ invariant_trace I hI hv)
  refine ⟨moves ++ moves', fun a ha => (List.mem_append.mp ha).elim (hA a) (hA' a), ?_, ?_⟩
  · exact validTrace_append.mpr ⟨hv, heq ▸ hv'⟩
  · rw [heq', heq, runTrace_append]

theorem follows_mono (hAB : ∀ a, A a → B a) (h : Follows I abs A s s') : Follows I abs B s s' :=
  fun hI => by
    obtain ⟨moves, hA, hv, heq⟩ := h hI
    exact ⟨moves, fun a ha => hAB a (hA a ha), hv, heq⟩

theorem follows_holds (h : Follows I abs A s s') (hI : I.Holds (abs s)) : I.Holds (abs s') := by
  obtain ⟨moves, _, hv, heq⟩ := h hI
  exact heq ▸ invariant_trace I hI hv

instance : Std.Refl (Follows I abs A) := ⟨fun _ => follows_of_eq rfl⟩

instance : IsTrans σ (Follows I abs A) := ⟨fun _ _ _ => follows_trans⟩

/-- Every run of a machine whose calls follow permitted moves is one trace of the abstract machine,
with a stretch for each call: however many calls were made, the concrete state is where their
stretches lead. -/
theorem run_follows {C : Machine σ κ} {permits : κ → α → Prop}
    (hcall : ∀ s c, Follows I abs (permits c) s (C.next s c)) (calls : List κ) (s : σ)
    (hI : I.Holds (abs s)) :
    ∃ stretches : List (List α),
      List.Forall₂ (fun c moves => ∀ a ∈ moves, permits c a) calls stretches ∧
      M.ValidTrace (abs s) stretches.flatten ∧
      ∀ n, abs (C.runTrace s (calls.take n)) = M.runTrace (abs s) (stretches.take n).flatten := by
  induction calls generalizing s with
  | nil =>
    refine ⟨[], .nil, trivial, fun n => ?_⟩
    rw [List.take_nil, List.take_nil]
    rfl
  | cons c calls ih =>
    obtain ⟨moves, hpermits, hv, heq⟩ := hcall s c hI
    obtain ⟨stretches, hall, hv', hprefix⟩ := ih (C.next s c) (heq ▸ invariant_trace I hI hv)
    refine ⟨moves :: stretches, .cons hpermits hall, ?_, fun n => ?_⟩
    · exact validTrace_append.mpr ⟨hv, heq ▸ hv'⟩
    · cases n with
      | zero => rfl
      | succ n =>
        rw [List.take_succ_cons, List.take_succ_cons, List.flatten_cons, runTrace_append, ← heq]
        exact hprefix n

variable {C : Machine σ κ} {gives takes : σ → κ → Bool}

end FollowedMoves

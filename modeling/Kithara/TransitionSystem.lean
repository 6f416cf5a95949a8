import Mathlib.Data.List.Infix

/-! Labelled machines: a guard and a state update for each action, and traces of actions.
Nondeterminism lives in the choice of actions, so a trace determines the states it visits.
`Along` records a side condition on every step, taken in the state the step starts from. -/
namespace TransitionSystem

structure Machine (σ α : Type*) where
  Enabled : σ → α → Prop
  next : σ → α → σ

variable {σ α : Type*} (M : Machine σ α)

def Machine.runTrace (s : σ) : List α → σ
  | [] => s
  | a :: as => Machine.runTrace (M.next s a) as

def Machine.ValidTrace (s : σ) : List α → Prop
  | [] => True
  | a :: as => M.Enabled s a ∧ Machine.ValidTrace (M.next s a) as

def Machine.Along (G : σ → α → Prop) (s : σ) : List α → Prop
  | [] => True
  | a :: as => G s a ∧ Machine.Along G (M.next s a) as

/-- Every state the trace visits satisfies `P`, the first and the last included. -/
def Machine.Throughout (P : σ → Prop) (s : σ) : List α → Prop
  | [] => P s
  | a :: as => P s ∧ Machine.Throughout P (M.next s a) as

/-- What the steps of a trace give out, in order. -/
def Machine.collect {β : Type*} (f : σ → α → List β) (s : σ) : List α → List β
  | [] => []
  | a :: as => f s a ++ Machine.collect f (M.next s a) as

def Machine.Reachable (start : σ) (s : σ) : Prop :=
  ∃ as, M.ValidTrace start as ∧ s = M.runTrace start as

instance [∀ s a, Decidable (M.Enabled s a)] (s : σ) (as : List α) :
    Decidable (M.ValidTrace s as) := by
  induction as generalizing s with
  | nil => exact isTrue trivial
  | cons a as ih => exact instDecidableAnd

instance (G : σ → α → Prop) [∀ s a, Decidable (G s a)] (s : σ) (as : List α) :
    Decidable (M.Along G s as) := by
  induction as generalizing s with
  | nil => exact isTrue trivial
  | cons a as ih => exact instDecidableAnd

variable {M}

@[simp] theorem runTrace_nil (s : σ) : M.runTrace s [] = s := rfl

@[simp] theorem runTrace_cons (s : σ) (a : α) (as : List α) :
    M.runTrace s (a :: as) = M.runTrace (M.next s a) as := rfl

theorem runTrace_append (s : σ) (as bs : List α) :
    M.runTrace s (as ++ bs) = M.runTrace (M.runTrace s as) bs := by
  induction as generalizing s with
  | nil => rfl
  | cons a as ih => exact ih (M.next s a)

theorem validTrace_append {s : σ} {as bs : List α} :
    M.ValidTrace s (as ++ bs) ↔ M.ValidTrace s as ∧ M.ValidTrace (M.runTrace s as) bs := by
  induction as generalizing s with
  | nil => simp [Machine.ValidTrace]
  | cons a as ih => simp [Machine.ValidTrace, ih, and_assoc]

theorem along_append {G : σ → α → Prop} {s : σ} {as bs : List α} :
    M.Along G s (as ++ bs) ↔ M.Along G s as ∧ M.Along G (M.runTrace s as) bs := by
  induction as generalizing s with
  | nil => simp [Machine.Along]
  | cons a as ih => simp [Machine.Along, ih, and_assoc]

theorem throughout_start {P : σ → Prop} {s : σ} {as : List α} (h : M.Throughout P s as) :
    P s := by
  cases as with
  | nil => exact h
  | cons a as => exact h.1

theorem throughout_imp {P Q : σ → Prop} (h : ∀ s, P s → Q s) {s : σ} {as : List α}
    (ht : M.Throughout P s as) : M.Throughout Q s as := by
  induction as generalizing s with
  | nil => exact h s ht
  | cons a as ih => exact ⟨h s ht.1, ih ht.2⟩

theorem throughout_iff_visited {P : σ → Prop} {s : σ} {as : List α} :
    M.Throughout P s as ↔ ∀ bs, bs <+: as → P (M.runTrace s bs) := by
  induction as generalizing s with
  | nil => simp [Machine.Throughout]
  | cons a as ih =>
    constructor
    · rintro ⟨hs, ht⟩ bs hb
      cases bs with
      | nil => exact hs
      | cons b bs =>
        obtain ⟨rfl, hp⟩ := List.cons_prefix_cons.mp hb
        exact ih.mp ht bs hp
    · intro h
      refine ⟨h [] (List.nil_prefix), ih.mpr fun bs hb => ?_⟩
      exact h (a :: bs) (List.cons_prefix_cons.mpr ⟨rfl, hb⟩)

/-- The invariant rule: what one guarded step preserves, a whole guarded trace preserves. -/
theorem trace_invariant {I : σ → Prop} {G : σ → α → Prop}
    (step : ∀ s a, I s → M.Enabled s a → G s a → I (M.next s a))
    {s : σ} {as : List α} (hs : I s) (hv : M.ValidTrace s as) (hg : M.Along G s as) :
    I (M.runTrace s as) := by
  induction as generalizing s with
  | nil => exact hs
  | cons a as ih => exact ih (step s a hs hv.1 hg.1) hv.2 hg.2

theorem along_trivial (s : σ) (as : List α) : M.Along (fun _ _ => True) s as := by
  induction as generalizing s with
  | nil => trivial
  | cons a as ih => exact ⟨trivial, ih _⟩

theorem valid_of_unguarded (h : ∀ s a, M.Enabled s a) (s : σ) (as : List α) :
    M.ValidTrace s as := by
  induction as generalizing s with
  | nil => trivial
  | cons a as ih => exact ⟨h s a, ih _⟩

theorem reachable_invariant {I : σ → Prop}
    (step : ∀ s a, I s → M.Enabled s a → I (M.next s a))
    {start s : σ} (hs : I start) (h : M.Reachable start s) : I s := by
  obtain ⟨as, hv, rfl⟩ := h
  exact trace_invariant (G := fun _ _ => True) (fun s a hi he _ => step s a hi he) hs hv
    (along_trivial _ _)

theorem along_and {G H : σ → α → Prop} {s : σ} {as : List α} :
    M.Along (fun s a => G s a ∧ H s a) s as ↔ M.Along G s as ∧ M.Along H s as := by
  induction as generalizing s with
  | nil => simp [Machine.Along]
  | cons a as ih => simp only [Machine.Along, ih, and_and_and_comm]

/-- What guarded steps keep holds throughout a guarded trace. -/
theorem throughout_of_along {P : σ → Prop} {G : σ → α → Prop}
    (step : ∀ s a, P s → M.Enabled s a → G s a → P (M.next s a))
    {s : σ} {as : List α} (hp : P s) (hv : M.ValidTrace s as) (hg : M.Along G s as) :
    M.Throughout P s as := by
  induction as generalizing s with
  | nil => exact hp
  | cons a as ih => exact ⟨hp, ih (step s a hp hv.1 hg.1) hv.2 hg.2⟩

theorem along_of_invariant {I : σ → Prop} {G Q : σ → α → Prop}
    (step : ∀ s a, I s → M.Enabled s a → G s a → Q s a ∧ I (M.next s a))
    {s : σ} {as : List α} (hs : I s) (hv : M.ValidTrace s as) (hg : M.Along G s as) :
    M.Along Q s as := by
  induction as generalizing s with
  | nil => trivial
  | cons a as ih =>
    obtain ⟨hq, hn⟩ := step s a hs hv.1 hg.1
    exact ⟨hq, ih hn hv.2 hg.2⟩

/-- The exactness rule: when, under an invariant `J` and a guard `H`, a step leaves `P` true
exactly if it meets `G`, a trace of such steps keeps `P` throughout exactly if all of them meet
`G`. -/
theorem throughout_iff_along_under {J P : σ → Prop} {G H : σ → α → Prop}
    (keep : ∀ s a, J s → M.Enabled s a → J (M.next s a))
    (exact_step : ∀ s a, J s → P s → M.Enabled s a → H s a → (P (M.next s a) ↔ G s a))
    {s : σ} {as : List α} (hj : J s) (hp : P s) (hv : M.ValidTrace s as) (hh : M.Along H s as) :
    M.Throughout P s as ↔ M.Along G s as := by
  induction as generalizing s with
  | nil => exact ⟨fun _ => trivial, fun _ => hp⟩
  | cons a as ih =>
    have he := exact_step s a hj hp hv.1 hh.1
    constructor
    · rintro ⟨_, ht⟩
      have hn : P (M.next s a) := throughout_start ht
      exact ⟨he.mp hn, (ih (keep s a hj hv.1) hn hv.2 hh.2).mp ht⟩
    · rintro ⟨hg, ha⟩
      have hn := he.mpr hg
      exact ⟨hp, (ih (keep s a hj hv.1) hn hv.2 hh.2).mpr ha⟩

theorem throughout_iff_along {J P : σ → Prop} {G : σ → α → Prop}
    (keep : ∀ s a, J s → M.Enabled s a → J (M.next s a))
    (exact_step : ∀ s a, J s → P s → M.Enabled s a → (P (M.next s a) ↔ G s a))
    {s : σ} {as : List α} (hj : J s) (hp : P s) (hv : M.ValidTrace s as) :
    M.Throughout P s as ↔ M.Along G s as :=
  throughout_iff_along_under (H := fun _ _ => True) keep
    (fun s a hs hps he _ => exact_step s a hs hps he) hj hp hv (along_trivial s as)

end TransitionSystem

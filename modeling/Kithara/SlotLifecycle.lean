import Mathlib.Data.List.Pairwise
import Mathlib.Data.Multiset.MapFold
import Mathlib.Logic.Relation
import Mathlib.Algebra.Order.Group.Multiset
import Mathlib.Tactic.Abel

/-! A slot that two sides reuse, generation after generation, over a pipe and back. The owner
opens it, stages items against its credits and ends the generation; the worker takes what was
published, answers it, and ends the generation last. Each side keeps its own copy of the
generation and learns of the other's only through the pipe. -/
namespace SlotLifecycle

variable {α : Type*}

/-- An item of a generation, or with no payload the end of it. -/
structure Event (α : Type*) where
  generation : ℕ
  payload : Option α

inductive Phase where
  | free
  | opened
  | closing
  deriving DecidableEq

structure Life (α : Type*) where
  phase : Phase
  generation : ℕ
  credits : ℕ
  staged : List (Event α)
  /-- Published and not taken by the worker. -/
  ring : List (Event α)
  turn : ℕ
  closing : Bool
  held : Multiset α
  /-- The worker's own state of the slot is as new. -/
  clean : Bool
  alive : Bool
  /-- Answered and not heard by the owner. -/
  out : List (Event α)
  lost : List (Event α)
  published : List (Event α)
  heard : List (Event α)

/-- The generation after this one, in a counter that wraps at `m`. -/
def wrap (m generation : ℕ) : ℕ := (generation + 1) % m

/-- The items among some events, each with its generation. -/
def items (events : List (Event α)) : Multiset (ℕ × α) :=
  (events.filterMap fun e => e.payload.map fun a => (e.generation, a) : List (ℕ × α))

def ends (events : List (Event α)) : List (Event α) := events.filter fun e => e.payload.isNone

def Runs (events : List (Event α)) : Prop := ∀ e ∈ events, e.payload ≠ none

namespace Life

def new (cap : ℕ) : Life α where
  phase := .free
  generation := 0
  credits := cap
  staged := []
  ring := []
  turn := 0
  closing := false
  held := 0
  clean := true
  alive := true
  out := []
  lost := []
  published := []
  heard := []

/-- How often the slot was closed and given back. -/
def closings (s : Life α) : ℕ := (ends s.heard).length

/-- Everything under way, oldest first, but for what the worker holds. -/
def line (s : Life α) : List (Event α) := s.out ++ (s.ring ++ s.staged)

def take (s : Life α) (e : Event α) (rest : List (Event α)) : Life α :=
  match e.payload with
  | some a =>
    if s.turn = e.generation then { s with ring := rest, held := a ::ₘ s.held }
    else { s with ring := rest, out := s.out ++ [e] }
  | none =>
    if s.turn = e.generation then { s with ring := rest, closing := true }
    else { s with ring := rest }

def hear (m : ℕ) (s : Life α) (e : Event α) (rest : List (Event α)) : Life α :=
  let heard := { s with out := rest, heard := s.heard ++ [e] }
  match e.payload with
  | some _ => if s.generation = e.generation then { heard with credits := s.credits + 1 } else heard
  | none =>
    if s.generation = e.generation then
      { heard with generation := wrap m e.generation, phase := .free }
    else heard

end Life

/-- One step of either side, in a slot closed fewer than `m` times before each opening. -/
inductive Step (m : ℕ) : Life α → Life α → Prop where
  | opens (s) : s.phase = .free → s.closings < m → Step m s { s with phase := .opened }
  | stage (s) (a : α) : s.phase = .opened → s.credits ≠ 0 → Step m s { s with
      credits := s.credits - 1
      staged := s.staged ++ [⟨s.generation, some a⟩] }
  | close (s) : s.phase = .opened → Step m s { s with
      phase := .closing
      staged := s.staged ++ [⟨s.generation, none⟩] }
  | publish (s) : s.lost = [] → Step m s { s with
      staged := []
      ring := s.ring ++ s.staged
      published := s.published ++ s.staged }
  | discard (s) : Step m s { s with staged := [], lost := s.lost ++ s.staged }
  | take (s) (e rest) : s.alive = true → s.ring = e :: rest → Step m s (s.take e rest)
  | scratch (s) (clean : Bool) : s.held ≠ 0 → Step m s { s with clean := clean }
  | answer (s) (a rest) : s.alive = true → s.held = a ::ₘ rest → Step m s { s with
      held := rest
      out := s.out ++ [⟨s.turn, some a⟩] }
  | retire (s) : s.alive = true → s.closing = true → s.held = 0 → Step m s { s with
      turn := wrap m s.turn
      closing := false
      clean := true
      out := s.out ++ [⟨s.turn, none⟩] }
  | die (s) : s.held = 0 → Step m s { s with alive := false }
  | orphan (s) (e rest) : s.alive = false → s.ring = e :: rest → Step m s { s with
      ring := rest
      out := s.out ++ [e] }
  | hear (s) (e rest) : s.out = e :: rest → Step m s (s.hear m e rest)

abbrev Steps (m : ℕ) : Life α → Life α → Prop := Relation.ReflTransGen (Step m)

/-- Where the end of the generation is, everything of it is behind. -/
structure Ordered (m : ℕ) (s : Life α) : Prop where
  same : ∀ e ∈ s.line, e.generation = s.generation
  last : s.line.Pairwise fun e _ => e.payload ≠ none
  ended : ¬ Runs s.out → s.held = 0 ∧ s.closing = false
  closing : s.closing = true → s.ring = [] ∧ s.staged = []
  turn : s.alive = true → Runs s.out → s.turn = s.generation
  turned : s.alive = true → ¬ Runs s.out → s.turn = wrap m s.generation
  clean : s.alive = true → s.phase = .free ∨ ¬ Runs s.out → s.clean = true
  dead : s.alive = false → s.held = 0
  free : s.phase = .free → s.line = [] ∧ s.held = 0 ∧ s.closing = false
  opened : s.phase = .opened → Runs s.line ∧ s.closing = false
  lost : s.lost ≠ [] → Runs s.out ∧ Runs s.ring ∧ s.closing = false ∧ s.phase ≠ .free

/-- Each credit is there or with one item, and each item published is under way or heard. -/
structure Accounted (cap : ℕ) (s : Life α) : Prop where
  credits : s.credits + Multiset.card (items s.line) + Multiset.card s.held +
    Multiset.card (items s.lost) = cap
  conserved : items s.published = items s.heard + items s.out +
    s.held.map (fun a => (s.turn, a)) + items s.ring

/-- The generations ended are those before the slot's own, once each, and nothing of one is
heard after its end. -/
structure Recorded (m : ℕ) (s : Life α) : Prop where
  generation : s.generation = s.closings % m
  used : s.phase ≠ .free → s.closings < m
  ended : (ends s.heard).map Event.generation = List.range s.closings
  order : s.heard.Pairwise fun a b => a.payload = none → a.generation ≠ b.generation

structure Invariant (m cap : ℕ) (s : Life α) : Prop where
  ordered : Ordered m s
  accounted : Accounted cap s
  recorded : Recorded m s

variable {m cap : ℕ} {s s' : Life α}

theorem items_append (es ds : List (Event α)) : items (es ++ ds) = items es + items ds := by
  simp only [items, List.filterMap_append, Multiset.coe_add]

theorem items_nil : items ([] : List (Event α)) = 0 := rfl

theorem items_some (g : ℕ) (a : α) : items [⟨g, some a⟩] = {(g, a)} := rfl

theorem items_none (g : ℕ) : items [(⟨g, none⟩ : Event α)] = 0 := rfl

theorem runs_append {es ds : List (Event α)} : Runs (es ++ ds) ↔ Runs es ∧ Runs ds :=
  List.forall_mem_append

theorem runs_cons {e : Event α} {es : List (Event α)} :
    Runs (e :: es) ↔ e.payload ≠ none ∧ Runs es := List.forall_mem_cons

theorem not_runs {es : List (Event α)} : ¬ Runs es ↔ ∃ e ∈ es, e.payload = none := by
  simp only [Runs, not_forall, not_not, exists_prop]

theorem ended_alone (h : Ordered m s) (hout : ¬ Runs s.out) : s.ring = [] ∧ s.staged = [] := by
  obtain ⟨e, he, hend⟩ := not_runs.mp hout
  have hafter := (List.pairwise_append.mp h.last).2.2 e he
  have hnil : s.ring ++ s.staged = [] := by
    apply List.eq_nil_iff_forall_not_mem.mpr
    exact fun d hd => hafter d hd hend
  exact List.append_eq_nil_iff.mp hnil

theorem take_same (h : Ordered m s) (halive : s.alive = true) {e : Event α}
    {rest : List (Event α)} (hring : s.ring = e :: rest) :
    e.generation = s.generation ∧ s.turn = s.generation ∧ Runs s.out := by
  have hmem : e ∈ s.line := by
    simp only [Life.line, hring, List.mem_append, List.mem_cons, true_or, or_true]
  have hruns : Runs s.out := by
    by_contra hout
    rw [(ended_alone h hout).1] at hring
    cases hring
  exact ⟨h.same e hmem, h.turn halive hruns, hruns⟩

theorem held_runs (h : Ordered m s) (hheld : s.held ≠ 0) :
    Runs s.out ∧ s.alive = true ∧ s.phase ≠ .free := by
  refine ⟨?_, ?_, ?_⟩
  · by_contra hout
    exact hheld (h.ended hout).1
  · by_contra hdead
    exact hheld (h.dead (Bool.eq_false_iff.mpr hdead))
  · exact fun hfree => hheld (h.free hfree).2.1

theorem closing_runs (h : Ordered m s) (hclosing : s.closing = true) : Runs s.out := by
  by_contra hout
  rw [(h.ended hout).2] at hclosing
  cases hclosing

theorem hear_same (h : Ordered m s) {e : Event α} {rest : List (Event α)}
    (hout : s.out = e :: rest) : e.generation = s.generation := by
  apply h.same
  simp only [Life.line, hout, List.cons_append, List.mem_cons, true_or]

theorem hear_last (h : Ordered m s) {e : Event α} {rest : List (Event α)}
    (hout : s.out = e :: rest) (hend : e.payload = none) :
    rest = [] ∧ s.ring = [] ∧ s.staged = [] ∧ s.held = 0 ∧ s.closing = false := by
  have hnot : ¬ Runs s.out := not_runs.mpr ⟨e, by rw [hout]; exact List.mem_cons_self, hend⟩
  obtain ⟨hring, hstaged⟩ := ended_alone h hnot
  obtain ⟨hheld, hclosing⟩ := h.ended hnot
  refine ⟨?_, hring, hstaged, hheld, hclosing⟩
  have hlast := h.last
  rw [Life.line, hout, List.cons_append] at hlast
  apply List.eq_nil_iff_forall_not_mem.mpr
  intro d hd
  exact List.rel_of_pairwise_cons hlast (List.mem_append_left _ hd) hend

theorem take_eq (h : Ordered m s) (halive : s.alive = true) {e : Event α} {rest : List (Event α)}
    (hring : s.ring = e :: rest) :
    (∃ a, e.payload = some a ∧ s.take e rest = { s with ring := rest, held := a ::ₘ s.held }) ∨
      (e.payload = none ∧ s.take e rest = { s with ring := rest, closing := true }) := by
  obtain ⟨hsame, hturn, _⟩ := take_same h halive hring
  have heq : s.turn = e.generation := hturn.trans hsame.symm
  cases hp : e.payload with
  | some a => exact Or.inl ⟨a, rfl, by simp only [Life.take, hp, if_pos heq]⟩
  | none => exact Or.inr ⟨rfl, by simp only [Life.take, hp, if_pos heq]⟩

theorem hear_eq (h : Ordered m s) {e : Event α} {rest : List (Event α)}
    (hout : s.out = e :: rest) :
    (∃ a, e.payload = some a ∧ s.hear m e rest =
      { s with out := rest, heard := s.heard ++ [e], credits := s.credits + 1 }) ∨
    (e.payload = none ∧ s.hear m e rest =
      { s with
        out := rest
        heard := s.heard ++ [e]
        generation := wrap m s.generation
        phase := .free }) := by
  have heq : s.generation = e.generation := (hear_same h hout).symm
  cases hp : e.payload with
  | some a => exact Or.inl ⟨a, rfl, by simp only [Life.hear, hp, if_pos heq]⟩
  | none => exact Or.inr ⟨rfl, by simp only [Life.hear, hp, heq, if_true]⟩

theorem staged_ordered (h : Ordered m s) (hopened : s.phase = .opened) (e : Event α)
    (hsame : e.generation = s.generation) {phase : Phase} {credits : ℕ}
    (hphase : phase = .closing ∨ phase = .opened ∧ e.payload ≠ none) :
    Ordered m { s with phase := phase, credits := credits, staged := s.staged ++ [e] } := by
  obtain ⟨hruns, hclosing⟩ := h.opened hopened
  have hout : Runs s.out := (runs_append.mp hruns).1
  have hbusy : phase ≠ .free := by
    rintro rfl
    rcases hphase with hp | ⟨hp, _⟩
    · cases hp
    · cases hp
  have hline : s.out ++ (s.ring ++ (s.staged ++ [e])) = s.line ++ [e] := by
    simp only [Life.line, List.append_assoc]
  refine ⟨?_, ?_, ?_, ?_, h.turn, h.turned, ?_, h.dead, ?_, ?_, ?_⟩
  · simp only [Life.line, hline]
    intro d hd
    rcases List.mem_append.mp hd with hd | hd
    · exact h.same d hd
    · rw [List.mem_singleton.mp hd, hsame]
  · simp only [Life.line, hline]
    refine List.pairwise_append.mpr ⟨h.last, List.pairwise_singleton _ _, ?_⟩
    exact fun d hd _ _ => hruns d hd
  · exact fun hnot => absurd hout hnot
  · intro hc
    rw [hclosing] at hc
    cases hc
  · intro halive hor
    rcases hor with hfree | hnot
    · exact absurd hfree hbusy
    · exact absurd hout hnot
  · exact fun hfree => absurd hfree hbusy
  · intro hopen
    rcases hphase with hp | ⟨_, hpayload⟩
    · exact absurd (hp.symm.trans hopen) (by decide)
    · refine ⟨?_, hclosing⟩
      simp only [Life.line, hline]
      exact runs_append.mpr ⟨hruns, runs_cons.mpr ⟨hpayload, fun d hd => absurd hd List.not_mem_nil⟩⟩
  · intro hlost
    obtain ⟨hout, hring, hclosing, _⟩ := h.lost hlost
    exact ⟨hout, hring, hclosing, hbusy⟩

theorem publish_ordered (h : Ordered m s) (hlost : s.lost = []) :
    Ordered m { s with
      staged := []
      ring := s.ring ++ s.staged
      published := s.published ++ s.staged } := by
  have hline : s.out ++ ((s.ring ++ s.staged) ++ []) = s.line := by
    simp only [Life.line, List.append_nil]
  refine ⟨?_, ?_, h.ended, ?_, h.turn, h.turned, h.clean, h.dead, ?_, ?_, ?_⟩
  · simp only [Life.line, hline]
    exact h.same
  · simp only [Life.line, hline]
    exact h.last
  · intro hclosing
    obtain ⟨hring, hstaged⟩ := h.closing hclosing
    exact ⟨by rw [hring, hstaged, List.append_nil], rfl⟩
  · simp only [Life.line, hline]
    exact h.free
  · simp only [Life.line, hline]
    exact h.opened
  · exact fun hne => absurd hlost hne

theorem discard_ordered (h : Ordered m s) :
    Ordered m { s with staged := [], lost := s.lost ++ s.staged } := by
  have hsub : (s.out ++ (s.ring ++ [])).Sublist s.line := by
    rw [List.append_nil]
    exact (List.sublist_append_left s.ring s.staged).append_left s.out
  refine ⟨?_, ?_, h.ended, ?_, h.turn, h.turned, h.clean, h.dead, ?_, ?_, ?_⟩
  · exact fun e he => h.same e (hsub.subset he)
  · exact h.last.sublist hsub
  · exact fun hclosing => ⟨(h.closing hclosing).1, rfl⟩
  · intro hfree
    obtain ⟨hline, hheld, hclosing⟩ := h.free hfree
    exact ⟨List.sublist_nil.mp (hline ▸ hsub), hheld, hclosing⟩
  · intro hopened
    obtain ⟨hruns, hclosing⟩ := h.opened hopened
    exact ⟨fun e he => hruns e (hsub.subset he), hclosing⟩
  · intro hne
    by_cases hstaged : s.staged = []
    · exact h.lost (by simpa [hstaged] using hne)
    · -- Something staged stands behind all that is published, so no end does.
      obtain ⟨d, hd⟩ := List.exists_mem_of_ne_nil _ hstaged
      have hlast := h.last
      rw [Life.line, ← List.append_assoc] at hlast
      have hbefore := (List.pairwise_append.mp hlast).2.2
      refine ⟨fun e he => hbefore e (List.mem_append_left _ he) d hd,
        fun e he => hbefore e (List.mem_append_right _ he) d hd, ?_, ?_⟩
      · by_contra hc
        exact hstaged (h.closing (Bool.not_eq_false _ ▸ hc)).2
      · intro hfree
        have hnil := (h.free hfree).1
        simp only [Life.line, List.append_eq_nil_iff] at hnil
        exact hstaged hnil.2.2

theorem take_ordered (h : Ordered m s) (halive : s.alive = true) {e : Event α}
    {rest : List (Event α)} (hring : s.ring = e :: rest) : Ordered m (s.take e rest) := by
  obtain ⟨_, _, hruns⟩ := take_same h halive hring
  have hsub : (s.out ++ (rest ++ s.staged)).Sublist s.line := by
    rw [Life.line, hring]
    exact ((List.sublist_cons_self e rest).append_right s.staged).append_left s.out
  have hbusy : s.phase ≠ .free := by
    intro hfree
    have hnil := (h.free hfree).1
    simp [Life.line, hring] at hnil
  rcases take_eq h halive hring with ⟨a, _, heq⟩ | ⟨hend, heq⟩
  · have hclosing : s.closing ≠ true := by
      intro hc
      rw [(h.closing hc).1] at hring
      cases hring
    rw [heq]
    refine ⟨fun d hd => h.same d (hsub.subset hd), h.last.sublist hsub, ?_, ?_, h.turn, h.turned,
      h.clean, ?_, ?_, ?_, ?_⟩
    · exact fun hnot => absurd hruns hnot
    · exact fun hc => absurd hc hclosing
    · exact fun hdead => absurd (halive.symm.trans hdead) Bool.noConfusion
    · exact fun hfree => absurd hfree hbusy
    · exact fun hopen => ⟨fun d hd => (h.opened hopen).1 d (hsub.subset hd), (h.opened hopen).2⟩
    · intro hlost
      obtain ⟨hout, hr, hc, hfree⟩ := h.lost hlost
      exact ⟨hout, (runs_cons.mp (hring ▸ hr)).2, hc, hfree⟩
  · -- The end of the generation stands last, so the ring is empty behind it.
    have hlast := (List.pairwise_append.mp h.last).2.1
    rw [hring, List.cons_append] at hlast
    have hnil : rest ++ s.staged = [] := by
      apply List.eq_nil_iff_forall_not_mem.mpr
      exact fun d hd => List.rel_of_pairwise_cons hlast hd hend
    rw [heq]
    refine ⟨fun d hd => h.same d (hsub.subset hd), h.last.sublist hsub, ?_, ?_, h.turn, h.turned,
      h.clean, h.dead, ?_, ?_, ?_⟩
    · exact fun hnot => absurd hruns hnot
    · exact fun _ => List.append_eq_nil_iff.mp hnil
    · exact fun hfree => absurd hfree hbusy
    · intro hopen
      have hmem : e ∈ s.line := by
        simp only [Life.line, hring, List.mem_append, List.mem_cons, true_or, or_true]
      exact absurd hend ((h.opened hopen).1 e hmem)
    · intro hlost
      exact absurd hend ((h.lost hlost).2.1 e (hring ▸ List.mem_cons_self))

theorem answer_ordered (h : Ordered m s) (halive : s.alive = true) {a : α} {rest : Multiset α}
    (hheld : s.held = a ::ₘ rest) :
    Ordered m { s with held := rest, out := s.out ++ [⟨s.turn, some a⟩] } := by
  obtain ⟨hruns, _, hbusy⟩ := held_runs h (by rw [hheld]; exact Multiset.cons_ne_zero)
  have hsome : Runs [(⟨s.turn, some a⟩ : Event α)] :=
    runs_cons.mpr ⟨Option.some_ne_none a, fun d hd => absurd hd List.not_mem_nil⟩
  have hout : Runs (s.out ++ [⟨s.turn, some a⟩]) := runs_append.mpr ⟨hruns, hsome⟩
  refine ⟨?_, ?_, fun hnot => absurd hout hnot, h.closing, fun _ _ => h.turn halive hruns,
    fun _ hnot => absurd hout hnot, ?_, ?_, ?_, ?_, ?_⟩
  · intro e he
    simp only [Life.line, List.mem_append, List.mem_singleton] at he
    rcases he with (he | rfl) | he
    · exact h.same e (List.mem_append_left _ he)
    · exact h.turn halive hruns
    · exact h.same e (List.mem_append_right _ (List.mem_append.mpr he))
  · refine List.pairwise_append.mpr ⟨?_, (List.pairwise_append.mp h.last).2.1, ?_⟩
    · exact List.pairwise_of_forall_mem_list fun e he _ _ => hout e he
    · exact fun e he _ _ => hout e he
  · rintro - (hfree | hnot)
    · exact absurd hfree hbusy
    · exact absurd hout hnot
  · exact fun hdead => absurd (halive.symm.trans hdead) Bool.noConfusion
  · exact fun hfree => absurd hfree hbusy
  · intro hopen
    obtain ⟨hline, hclosing⟩ := h.opened hopen
    exact ⟨runs_append.mpr ⟨hout, (runs_append.mp hline).2⟩, hclosing⟩
  · intro hlost
    obtain ⟨_, hring, hclosing, _⟩ := h.lost hlost
    exact ⟨hout, hring, hclosing, hbusy⟩

theorem retire_ordered (h : Ordered m s) (halive : s.alive = true) (hclosing : s.closing = true)
    (hheld : s.held = 0) : Ordered m { s with
      turn := wrap m s.turn
      closing := false
      clean := true
      out := s.out ++ [⟨s.turn, none⟩] } := by
  have hruns := closing_runs h hclosing
  obtain ⟨hring, hstaged⟩ := h.closing hclosing
  have hturn := h.turn halive hruns
  have hended : ¬ Runs (s.out ++ [(⟨s.turn, none⟩ : Event α)]) := fun hr =>
    (runs_append.mp hr).2 _ List.mem_cons_self rfl
  have hline : (s.out ++ [⟨s.turn, none⟩]) ++ (s.ring ++ s.staged) =
      s.out ++ [(⟨s.turn, none⟩ : Event α)] := by
    rw [hring, hstaged, List.append_nil, List.append_nil]
  have hbusy : s.phase ≠ .free := by
    intro hfree
    rw [(h.free hfree).2.2] at hclosing
    cases hclosing
  refine ⟨?_, ?_, fun _ => ⟨hheld, rfl⟩, fun hc => Bool.noConfusion hc,
    fun _ hr => absurd hr hended, fun _ _ => congrArg (wrap m) hturn, fun _ _ => rfl, h.dead,
    fun hfree => absurd hfree hbusy, ?_, ?_⟩
  · simp only [Life.line, hline]
    intro e he
    rcases List.mem_append.mp he with he | he
    · exact h.same e (List.mem_append_left _ he)
    · rw [List.mem_singleton.mp he]
      exact hturn
  · simp only [Life.line, hline]
    refine List.pairwise_append.mpr ⟨?_, List.pairwise_singleton _ _, fun e he _ _ => hruns e he⟩
    exact List.pairwise_of_forall_mem_list fun e he _ _ => hruns e he
  · intro hopen
    rw [(h.opened hopen).2] at hclosing
    cases hclosing
  · intro hlost
    rw [(h.lost hlost).2.2.1] at hclosing
    cases hclosing

theorem orphan_ordered (h : Ordered m s) (hdead : s.alive = false) {e : Event α}
    {rest : List (Event α)} (hring : s.ring = e :: rest) :
    Ordered m { s with ring := rest, out := s.out ++ [e] } := by
  have hline : (s.out ++ [e]) ++ (rest ++ s.staged) = s.line := by
    simp only [Life.line, hring, List.append_assoc, List.cons_append, List.nil_append]
  have hclosing : s.closing ≠ true := by
    intro hc
    rw [(h.closing hc).1] at hring
    cases hring
  have hlive : s.alive ≠ true := fun ha => absurd (ha.symm.trans hdead) Bool.noConfusion
  refine ⟨?_, ?_, ?_, fun hc => absurd hc hclosing, fun ha => absurd ha hlive,
    fun ha => absurd ha hlive, fun ha => absurd ha hlive, h.dead, ?_, ?_, ?_⟩
  · simp only [Life.line, hline]
    exact h.same
  · simp only [Life.line, hline]
    exact h.last
  · exact fun _ => ⟨h.dead hdead, Bool.eq_false_iff.mpr hclosing⟩
  · simp only [Life.line, hline]
    exact h.free
  · simp only [Life.line, hline]
    exact h.opened
  · intro hlost
    obtain ⟨hout, hr, hc, hfree⟩ := h.lost hlost
    obtain ⟨he, hrest⟩ := runs_cons.mp (hring ▸ hr)
    refine ⟨runs_append.mpr ⟨hout, runs_cons.mpr ⟨he, ?_⟩⟩, hrest, hc, hfree⟩
    exact fun d hd => absurd hd List.not_mem_nil

theorem hear_ordered (h : Ordered m s) {e : Event α} {rest : List (Event α)}
    (hout : s.out = e :: rest) : Ordered m (s.hear m e rest) := by
  have hsub : (rest ++ (s.ring ++ s.staged)).Sublist s.line := by
    rw [Life.line, hout]
    exact (List.sublist_cons_self e rest).append_right _
  have hbusy : s.phase ≠ .free := by
    intro hfree
    have hnil := (h.free hfree).1
    simp [Life.line, hout] at hnil
  rcases hear_eq h hout with ⟨a, ha, heq⟩ | ⟨hend, heq⟩
  · have hrest : Runs rest ↔ Runs s.out := by
      rw [hout, runs_cons]
      simp [ha]
    rw [heq]
    refine ⟨fun d hd => h.same d (hsub.subset hd), h.last.sublist hsub, ?_, h.closing, ?_, ?_, ?_,
      h.dead, ?_, ?_, ?_⟩
    · exact fun hnot => h.ended (mt hrest.mpr hnot)
    · exact fun halive hr => h.turn halive (hrest.mp hr)
    · exact fun halive hnot => h.turned halive (mt hrest.mpr hnot)
    · exact fun halive hor => h.clean halive (hor.imp_right fun hnot => mt hrest.mpr hnot)
    · exact fun hfree => absurd hfree hbusy
    · exact fun hopen => ⟨fun d hd => (h.opened hopen).1 d (hsub.subset hd), (h.opened hopen).2⟩
    · intro hlost
      obtain ⟨ho, hr, hc, hfree⟩ := h.lost hlost
      exact ⟨hrest.mpr ho, hr, hc, hfree⟩
  · have hnot : ¬ Runs s.out := not_runs.mpr ⟨e, by rw [hout]; exact List.mem_cons_self, hend⟩
    obtain ⟨hrest, hring, hstaged, hheld, hclosing⟩ := hear_last h hout hend
    have hnil : rest ++ (s.ring ++ s.staged) = [] := by
      rw [hrest, hring, hstaged]
      rfl
    have hruns : Runs rest := by
      rw [hrest]
      exact fun d hd => absurd hd List.not_mem_nil
    rw [heq]
    refine ⟨?_, ?_, fun hr => absurd hruns hr, fun hc => absurd (hclosing.symm.trans hc)
      Bool.noConfusion, fun halive _ => h.turned halive hnot, fun _ hr => absurd hruns hr,
      fun halive _ => h.clean halive (Or.inr hnot), h.dead, fun _ => ⟨hnil, hheld, hclosing⟩,
      fun hopen => absurd hopen (by simp),
      fun hlost => absurd (h.lost hlost).1 hnot⟩
    · simp only [Life.line, hnil]
      exact fun d hd => absurd hd List.not_mem_nil
    · simp only [Life.line, hnil]
      exact List.Pairwise.nil

theorem step_ordered (h : Ordered m s) (st : Step m s s') : Ordered m s' := by
  cases st with
  | opens hfree _ =>
    obtain ⟨hline, hheld, hclosing⟩ := h.free hfree
    refine ⟨h.same, h.last, h.ended, h.closing, h.turn, h.turned,
      fun halive hor => h.clean halive (hor.imp_left fun _ => hfree), h.dead,
      fun hf => absurd hf (by simp), fun _ => ⟨?_, hclosing⟩, fun hlost => ?_⟩
    · simp only [Life.line] at hline ⊢
      rw [hline]
      exact fun d hd => absurd hd List.not_mem_nil
    · exact absurd hfree (h.lost hlost).2.2.2
  | stage a hopened _ =>
    exact staged_ordered h hopened _ rfl (Or.inr ⟨hopened, Option.some_ne_none a⟩)
  | close hopened => exact staged_ordered h hopened _ rfl (Or.inl rfl)
  | publish hlost => exact publish_ordered h hlost
  | discard => exact discard_ordered h
  | take e rest halive hring => exact take_ordered h halive hring
  | scratch clean hheld =>
    obtain ⟨hruns, _, hbusy⟩ := held_runs h hheld
    refine { h with clean := ?_ }
    rintro - (hfree | hnot)
    · exact absurd hfree hbusy
    · exact absurd hruns hnot
  | answer a rest halive hheld => exact answer_ordered h halive hheld
  | retire halive hclosing hheld => exact retire_ordered h halive hclosing hheld
  | die hheld =>
    exact { h with
      turn := fun ha => Bool.noConfusion ha
      turned := fun ha => Bool.noConfusion ha
      clean := fun ha => Bool.noConfusion ha
      dead := fun _ => hheld }
  | orphan e rest hdead hring => exact orphan_ordered h hdead hring
  | hear e rest hout => exact hear_ordered h hout

theorem card_items_singleton {e : Event α} (he : e.payload ≠ none) :
    Multiset.card (items [e]) = 1 := by
  obtain ⟨g, payload⟩ := e
  cases payload with
  | none => exact absurd rfl he
  | some a => rfl

theorem items_line (s : Life α) :
    items s.line = items s.out + (items s.ring + items s.staged) := by
  rw [Life.line, items_append, items_append]

theorem credits_places (h : Accounted cap s) :
    s.credits + (Multiset.card (items s.out) + (Multiset.card (items s.ring) +
      Multiset.card (items s.staged))) + Multiset.card s.held + Multiset.card (items s.lost) =
      cap := by
  have hcredits := h.credits
  rw [items_line, Multiset.card_add, Multiset.card_add] at hcredits
  exact hcredits

theorem accounted_of_places (hcredits : s.credits + (Multiset.card (items s.out) +
    (Multiset.card (items s.ring) + Multiset.card (items s.staged))) + Multiset.card s.held +
      Multiset.card (items s.lost) = cap)
    (hconserved : items s.published = items s.heard + items s.out +
      s.held.map (fun a => (s.turn, a)) + items s.ring) : Accounted cap s := by
  refine ⟨?_, hconserved⟩
  rw [items_line, Multiset.card_add, Multiset.card_add]
  exact hcredits

theorem step_accounted (ho : Ordered m s) (h : Accounted cap s) (st : Step m s s') :
    Accounted cap s' := by
  have hcredits := credits_places h
  cases st with
  | opens _ _ => exact ⟨h.credits, h.conserved⟩
  | stage a _ hleft =>
    refine accounted_of_places ?_ h.conserved
    simp only [items_append, items_some, Multiset.card_add, Multiset.card_singleton]
    omega
  | close _ =>
    refine accounted_of_places ?_ h.conserved
    simp only [items_append, Multiset.card_add, items_none, Multiset.card_zero]
    omega
  | publish _ =>
    apply accounted_of_places
    · simp only [items_append, Multiset.card_add, items_nil, Multiset.card_zero]
      omega
    · simp only [items_append, h.conserved]
      abel
  | discard =>
    refine accounted_of_places ?_ h.conserved
    simp only [items_append, Multiset.card_add, items_nil, Multiset.card_zero]
    omega
  | take e rest halive hring =>
    obtain ⟨hsame, hturn, _⟩ := take_same ho halive hring
    have hsplit : items s.ring = items [e] + items rest := by
      rw [hring, ← List.singleton_append, items_append]
    rcases take_eq ho halive hring with ⟨a, ha, heq⟩ | ⟨hend, heq⟩
    · have he : items [e] = {(s.turn, a)} := by
        rw [hturn, ← hsame, items, List.filterMap_cons_some (by rw [ha]; rfl)]
        rfl
      rw [heq]
      rw [hsplit, he, Multiset.card_add, Multiset.card_singleton] at hcredits
      apply accounted_of_places
      · simp only [Multiset.card_cons]
        omega
      · have hconserved := h.conserved
        rw [hsplit, he] at hconserved
        have hmap : (a ::ₘ s.held).map (fun a => (s.turn, a)) =
            {(s.turn, a)} + s.held.map fun a => (s.turn, a) := Multiset.map_cons _ _ _
        simp only [hconserved, hmap]
        abel
    · have he : items [e] = 0 := by
        rw [items, List.filterMap_cons_none (by rw [hend]; rfl)]
        rfl
      rw [heq]
      rw [hsplit, he, zero_add] at hcredits
      apply accounted_of_places hcredits
      have hconserved := h.conserved
      rw [hsplit, he, zero_add] at hconserved
      exact hconserved
  | scratch clean _ => exact ⟨h.credits, h.conserved⟩
  | answer a rest halive hheld =>
    rw [hheld, Multiset.card_cons] at hcredits
    apply accounted_of_places
    · simp only [items_append, items_some, Multiset.card_add, Multiset.card_singleton]
      omega
    · have hmap : s.held.map (fun a => (s.turn, a)) =
          {(s.turn, a)} + rest.map fun a => (s.turn, a) := by
        rw [hheld]
        exact Multiset.map_cons _ _ _
      simp only [h.conserved, hmap, items_append, items_some]
      abel
  | retire halive hclosing hheld =>
    apply accounted_of_places
    · simp only [items_append, items_none, Multiset.card_add, Multiset.card_zero]
      omega
    · simp only [h.conserved, items_append, items_none, hheld, Multiset.map_zero, add_zero]
  | die _ => exact ⟨h.credits, h.conserved⟩
  | orphan e rest hdead hring =>
    have hsplit : items s.ring = items [e] + items rest := by
      rw [hring, ← List.singleton_append, items_append]
    rw [hsplit, Multiset.card_add] at hcredits
    apply accounted_of_places
    · simp only [items_append, Multiset.card_add]
      omega
    · simp only [h.conserved, hsplit, items_append, ho.dead hdead, Multiset.map_zero, add_zero]
      abel
  | hear e rest hout =>
    have hsplit : items s.out = items [e] + items rest := by
      rw [hout, ← List.singleton_append, items_append]
    rw [hsplit, Multiset.card_add] at hcredits
    have hconserved := h.conserved
    rw [hsplit] at hconserved
    rcases hear_eq ho hout with ⟨a, ha, heq⟩ | ⟨hend, heq⟩
    · rw [heq]
      rw [card_items_singleton (by rw [ha]; exact Option.some_ne_none a)] at hcredits
      apply accounted_of_places
      · simp only []
        omega
      · simp only [hconserved, items_append]
        abel
    · have he : items [e] = 0 := by
        rw [items, List.filterMap_cons_none (by rw [hend]; rfl)]
        rfl
      rw [heq]
      rw [he, Multiset.card_zero, zero_add] at hcredits
      apply accounted_of_places hcredits
      simp only [hconserved, items_append, he, zero_add, add_zero]

theorem ends_append (es ds : List (Event α)) : ends (es ++ ds) = ends es ++ ends ds :=
  List.filter_append _ _

/-- A generation under way is numbered by the closings before it. -/
theorem generation_busy (h : Recorded m s) (hbusy : s.phase ≠ .free) :
    s.generation = s.closings := by
  rw [h.generation]
  exact Nat.mod_eq_of_lt (h.used hbusy)

theorem ended_lt (h : Recorded m s) {e : Event α} (he : e ∈ s.heard) (hend : e.payload = none) :
    e.generation < s.closings := by
  have hin : e.generation ∈ (ends s.heard).map Event.generation := by
    apply List.mem_map_of_mem
    exact List.mem_filter.mpr ⟨he, by rw [hend]; rfl⟩
  rw [h.ended] at hin
  exact List.mem_range.mp hin

theorem hear_recorded (ho : Ordered m s) (h : Recorded m s) {e : Event α} {rest : List (Event α)}
    (hout : s.out = e :: rest) : Recorded m (s.hear m e rest) := by
  have hbusy : s.phase ≠ .free := by
    intro hfree
    have hnil := (ho.free hfree).1
    simp [Life.line, hout] at hnil
  have hgeneration := generation_busy h hbusy
  have hsame := hear_same ho hout
  have horder : (s.heard ++ [e]).Pairwise
      fun a b => a.payload = none → a.generation ≠ b.generation := by
    refine List.pairwise_append.mpr ⟨h.order, List.pairwise_singleton _ _, ?_⟩
    intro a ha b hb hend
    rw [List.mem_singleton.mp hb, hsame, hgeneration]
    exact (ended_lt h ha hend).ne
  rcases hear_eq ho hout with ⟨a, ha, heq⟩ | ⟨hend, heq⟩
  · have hnone : ends [e] = [] := by simp [ends, ha]
    have hclosings : (s.hear m e rest).closings = s.closings := by
      rw [heq, Life.closings, ends_append, hnone, List.append_nil]
      rfl
    have hheard : ends (s.hear m e rest).heard = ends s.heard := by
      rw [heq, ends_append, hnone, List.append_nil]
    refine ⟨?_, ?_, ?_, ?_⟩
    · rw [hclosings, heq]
      exact h.generation
    · rw [hclosings, heq]
      exact h.used
    · rw [hclosings, hheard]
      exact h.ended
    · rw [heq]
      exact horder
  · have hone : ends [e] = [e] := by simp [ends, hend]
    have hheard : ends (s.hear m e rest).heard = ends s.heard ++ [e] := by
      rw [heq, ends_append, hone]
    have hclosings : (s.hear m e rest).closings = s.closings + 1 := by
      rw [Life.closings, hheard, List.length_append]
      rfl
    refine ⟨?_, ?_, ?_, ?_⟩
    · rw [hclosings, heq]
      simp only [wrap, h.generation, Nat.mod_add_mod]
    · rw [heq]
      exact fun hnot => absurd rfl hnot
    · rw [hclosings, hheard, List.map_append, h.ended, List.range_succ, List.map_singleton, hsame,
        hgeneration]
    · rw [heq]
      exact horder

theorem step_recorded (ho : Ordered m s) (h : Recorded m s) (st : Step m s s') :
    Recorded m s' := by
  obtain ⟨hgeneration, hused, hended, horder⟩ := h
  cases st with
  | opens _ hlt => exact ⟨hgeneration, fun _ => hlt, hended, horder⟩
  | stage a hopened _ => exact ⟨hgeneration, hused, hended, horder⟩
  | close hopened =>
    exact ⟨hgeneration, fun _ => hused (by rw [hopened]; decide), hended, horder⟩
  | publish _ => exact ⟨hgeneration, hused, hended, horder⟩
  | discard => exact ⟨hgeneration, hused, hended, horder⟩
  | take e rest halive hring =>
    rcases take_eq ho halive hring with ⟨a, _, heq⟩ | ⟨_, heq⟩
    · rw [heq]
      exact ⟨hgeneration, hused, hended, horder⟩
    · rw [heq]
      exact ⟨hgeneration, hused, hended, horder⟩
  | scratch clean _ => exact ⟨hgeneration, hused, hended, horder⟩
  | answer a rest _ _ => exact ⟨hgeneration, hused, hended, horder⟩
  | retire _ _ _ => exact ⟨hgeneration, hused, hended, horder⟩
  | die _ => exact ⟨hgeneration, hused, hended, horder⟩
  | orphan e rest _ _ => exact ⟨hgeneration, hused, hended, horder⟩
  | hear e rest hout => exact hear_recorded ho ⟨hgeneration, hused, hended, horder⟩ hout

theorem step_invariant (h : Invariant m cap s) (st : Step m s s') : Invariant m cap s' :=
  ⟨step_ordered h.ordered st, step_accounted h.ordered h.accounted st,
    step_recorded h.ordered h.recorded st⟩

theorem steps_invariant (h : Invariant m cap s) (st : Steps m s s') : Invariant m cap s' := by
  induction st with
  | refl => exact h
  | tail _ st ih => exact step_invariant ih st

theorem new_invariant (m cap : ℕ) : Invariant m cap (Life.new cap : Life α) := by
  refine ⟨?_, ?_, ?_⟩
  · constructor <;> simp [Life.new, Life.line, Runs]
  · exact accounted_of_places (by simp [Life.new, items]) rfl
  · exact ⟨(Nat.zero_mod m).symm, fun hnot => absurd rfl hnot, rfl, .nil⟩

theorem free_credits (h : Invariant m cap s) (hfree : s.phase = .free) : s.credits = cap := by
  obtain ⟨hline, hheld, _⟩ := h.ordered.free hfree
  have hlost : s.lost = [] := by
    by_contra hne
    exact (h.ordered.lost hne).2.2.2 hfree
  have hcredits := h.accounted.credits
  rw [hline, hheld, hlost] at hcredits
  simpa [items] using hcredits

theorem mem_items {es : List (Event α)} {x : ℕ × α} :
    x ∈ items es ↔ ∃ e ∈ es, e.payload = some x.2 ∧ e.generation = x.1 := by
  simp only [items, Multiset.mem_coe, List.mem_filterMap, Option.map_eq_some_iff]
  constructor
  · rintro ⟨e, he, a, ha, rfl⟩
    exact ⟨e, he, ha, rfl⟩
  · rintro ⟨e, he, ha, hg⟩
    exact ⟨e, he, x.2, ha, Prod.ext hg rfl⟩

/-- What is published and not heard is of the generation under way. -/
theorem under_way (h : Invariant m cap s) {x : ℕ × α}
    (hx : x ∈ items s.out + s.held.map (fun a => (s.turn, a)) + items s.ring) :
    x.1 = s.closings := by
  have hline {e : Event α} (he : e ∈ s.line) : e.generation = s.closings := by
    rw [h.ordered.same e he]
    apply generation_busy h.recorded
    intro hfree
    rw [(h.ordered.free hfree).1] at he
    exact absurd he List.not_mem_nil
  rcases Multiset.mem_add.mp hx with hx | hx
  · rcases Multiset.mem_add.mp hx with hx | hx
    · obtain ⟨e, he, _, hg⟩ := mem_items.mp hx
      exact hg ▸ hline (List.mem_append_left _ he)
    · obtain ⟨a, ha, rfl⟩ := Multiset.mem_map.mp hx
      have hne : s.held ≠ 0 := fun hzero => by simp [hzero] at ha
      obtain ⟨hruns, halive, hbusy⟩ := held_runs h.ordered hne
      rw [← generation_busy h.recorded hbusy]
      exact h.ordered.turn halive hruns
  · obtain ⟨e, he, _, hg⟩ := mem_items.mp hx
    exact hg ▸ hline (List.mem_append_right _ (List.mem_append_left _ he))

/-- Once the end of a generation is heard, everything published of it has been heard. -/
theorem ended_complete (h : Invariant m cap s) {e : Event α} (he : e ∈ s.heard)
    (hend : e.payload = none) :
    (items s.published).filter (fun x => x.1 = e.generation) =
      (items s.heard).filter fun x => x.1 = e.generation := by
  have hpast := ended_lt h.recorded he hend
  have hrest : (items s.out + s.held.map (fun a => (s.turn, a)) + items s.ring).filter
      (fun x => x.1 = e.generation) = 0 := by
    apply Multiset.filter_eq_nil.mpr
    intro x hx heq
    rw [under_way h hx] at heq
    exact hpast.ne' heq
  rw [h.accounted.conserved, add_assoc, add_assoc, Multiset.filter_add,
    ← add_assoc (items s.out), hrest, add_zero]

def ofGeneration (g : ℕ) (events : List (Event α)) : Multiset α :=
  (events.filterMap fun e => if e.generation = g then e.payload else none : List α)

theorem ofGeneration_items (g : ℕ) (es : List (Event α)) :
    ofGeneration g es = ((items es).filter fun x => x.1 = g).map Prod.snd := by
  induction es with
  | nil => rfl
  | cons e es ih =>
    obtain ⟨g', payload⟩ := e
    simp only [ofGeneration, items] at ih ⊢
    cases payload with
    | none => simpa [List.filterMap_cons] using ih
    | some a =>
      by_cases hg : g' = g
      · simpa [List.filterMap_cons, hg] using ih
      · simpa [List.filterMap_cons, hg] using ih

/-- The items of a generation are heard, or under way, each once. -/
theorem conserved_of (h : Accounted cap s) (g : ℕ) : ofGeneration g s.published =
    ofGeneration g s.heard + ofGeneration g s.out + (if s.turn = g then s.held else 0) +
      ofGeneration g s.ring := by
  have hheld : ((s.held.map fun a => (s.turn, a)).filter fun x => x.1 = g).map Prod.snd =
      if s.turn = g then s.held else 0 := by
    rw [Multiset.filter_map, Multiset.map_map]
    by_cases hturn : s.turn = g
    · simp [hturn]
    · simp [hturn]
  simp only [ofGeneration_items]
  rw [h.conserved, ← hheld]
  simp only [Multiset.filter_add, Multiset.map_add]

theorem ended_of (h : Invariant m cap s) {e : Event α} (he : e ∈ s.heard)
    (hend : e.payload = none) :
    ofGeneration e.generation s.published = ofGeneration e.generation s.heard := by
  rw [ofGeneration_items, ofGeneration_items, ended_complete h he hend]

theorem length_eq (es : List (Event α)) :
    es.length = Multiset.card (items es) + (ends es).length := by
  induction es with
  | nil => rfl
  | cons e es ih =>
    obtain ⟨g, payload⟩ := e
    cases payload with
    | none => simp [items, ends] at ih ⊢; omega
    | some a => simp [items, ends] at ih ⊢; omega

theorem line_length (h : Invariant m cap s) :
    s.line.length + Multiset.card s.held ≤ cap + 1 ∧
      (s.phase = .opened → s.line.length + Multiset.card s.held ≤ cap) := by
  have hlength := length_eq s.line
  have hcredits := h.accounted.credits
  constructor
  · have hone : (ends s.line).length ≤ 1 := by
      have hsub : (ends s.line).Sublist s.line := List.filter_sublist
      have hlast := h.ordered.last.sublist hsub
      cases hends : ends s.line with
      | nil => simp
      | cons e es =>
        rw [hends] at hlast
        have hend : e.payload = none := by
          have he : e ∈ ends s.line := by
            rw [hends]
            exact List.mem_cons_self
          exact Option.isNone_iff_eq_none.mp (List.mem_filter.mp he).2
        have hnil : es = [] := List.eq_nil_iff_forall_not_mem.mpr fun d hd =>
          List.rel_of_pairwise_cons hlast hd hend
        simp [hnil]
    omega
  · intro hopened
    have hnone : ends s.line = [] := by
      apply List.filter_eq_nil_iff.mpr
      intro e he hend
      exact (h.ordered.opened hopened).1 e he (Option.isNone_iff_eq_none.mp hend)
    rw [hnone, List.length_nil] at hlength
    omega

theorem answer_all (halive : s.alive = true) (answers : List α) (held : Multiset α)
    (hheld : s.held = held + (answers : Multiset α)) : Steps m s { s with
      held := held
      out := s.out ++ answers.map fun a => ⟨s.turn, some a⟩ } := by
  induction answers generalizing s with
  | nil =>
    rw [Multiset.coe_nil, add_zero] at hheld
    rw [List.map_nil, List.append_nil, ← hheld]
  | cons a answers ih =>
    rw [← Multiset.cons_coe, Multiset.add_cons] at hheld
    have hstep := Step.answer (m := m) s a _ halive hheld
    have hrest := ih (s := { s with
      held := held + (answers : Multiset α)
      out := s.out ++ [⟨s.turn, some a⟩] }) halive rfl
    have hout : s.out ++ (a :: answers).map (fun a => (⟨s.turn, some a⟩ : Event α)) =
        s.out ++ [⟨s.turn, some a⟩] ++ answers.map fun a => ⟨s.turn, some a⟩ := by
      simp
    rw [hout]
    exact (Relation.ReflTransGen.single hstep).trans hrest

end SlotLifecycle

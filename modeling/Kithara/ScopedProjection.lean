import Kithara.ScopedChannel
import Mathlib.Algebra.BigOperators.Fin
import Mathlib.Algebra.Order.BigOperators.Group.Finset

/-! Each level of a scoped channel, seen on its own, is a slot that the owner and the executor
reuse: every step of the channel does for each level what its lifecycle allows. -/
namespace ScopedProjection

open BoundedRing CommandProtocol CommandDocket CommandLevel CommandChannel TransitionSystem
open ScopedChannel
open SlotLifecycle (Event Life Phase Steps)

variable {R M P : Protocol} {c : Config}

/-- A batch by its number and basis. -/
abbrev Payload (P : Protocol) := ℕ × List (P.Target × Option ℕ)

/-- What an identity and a payload are to one slot. -/
def eventOf (i : Fin c.scopes) (id : ScopeId c.scopes) (payload : Option (Payload M)) :
    Option (Event (Payload M)) :=
  if id.index = i then some ⟨id.generation, payload⟩ else none

def itemAt (i : Fin c.scopes) : Item R M c → Option (Event (Payload M))
  | .root _ => none
  | .scope id sent => eventOf i id (some (sent.tag Batch.basis))
  | .close id => eventOf i id none

def answerAt (i : Fin c.scopes) : ScopeReply M c → Option (Event (Payload M))
  | .receipt id receipt => eventOf i id (some (receipt.tag Batch.basis))
  | .closed id => eventOf i id none

def replyAt (i : Fin c.scopes) : Reply R M c → Option (Event (Payload M))
  | .root _ => none
  | .scope reply => answerAt i reply

def heardAt (i : Fin c.scopes) : ScopedReceipt R M c → Option (Event (Payload M))
  | .root _ => none
  | .scope id receipt => eventOf i id (some (receipt.tag Batch.basis))
  | .closed id => eventOf i id none

/-- The root never ends, so all of it is one generation. -/
def rootEvent (payload : Payload P) : Event (Payload P) := ⟨0, some payload⟩

def rootItem : Item R M c → Option (Event (Payload R))
  | .root sent => some (rootEvent (sent.tag Batch.basis))
  | _ => none

def rootReply : Reply R M c → Option (Event (Payload R))
  | .root receipt => some (rootEvent (receipt.tag Batch.basis))
  | .scope _ => none

def rootHeard : ScopedReceipt R M c → Option (Event (Payload R))
  | .root receipt => some (rootEvent (receipt.tag Batch.basis))
  | _ => none

def heldBy (scope : ScopeDocket M) : Multiset (Payload M) :=
  scope.docket.content Batch.basis + scope.hand.content Batch.basis

def isNew (ledger : Ledger) : Bool := ledger.last.all fun last => last.isNone

/-- The inbox still holds a ring to answer into. -/
def answering : Stage → Bool
  | .gone => false
  | _ => true

/-- One scope slot of the channel. -/
def life (s : State R M c) (i : Fin c.scopes) : Life (Payload M) where
  phase := (s.slots i).state
  generation := (s.slots i).generation
  credits := (s.slots i).book.credits
  staged := s.staged.filterMap (itemAt i)
  ring := s.commands.items.filterMap (itemAt i)
  turn := (s.scopes i).generation
  closing := (s.scopes i).closing
  held := heldBy (s.scopes i)
  clean := isNew (s.scopes i).docket.ledger
  alive := answering s.stage
  out := s.scopeAnswers.items.filterMap (answerAt i) ++ s.replies.filterMap (replyAt i)
  lost := s.lost.filterMap (itemAt i)
  published := s.passes.flatten.filterMap (itemAt i)
  heard := s.received.filterMap (heardAt i)

def rootLife (s : State R M c) : Life (Payload R) where
  phase := .opened
  generation := 0
  credits := s.root.credits
  staged := s.staged.filterMap rootItem
  ring := s.commands.items.filterMap rootItem
  turn := 0
  closing := false
  held := s.rootDocket.content Batch.basis + s.rootHand.content Batch.basis
  clean := true
  alive := answering s.stage
  out := s.rootAnswers.items.map (fun receipt => rootEvent (receipt.tag Batch.basis)) ++
    s.replies.filterMap rootReply
  lost := s.lost.filterMap rootItem
  published := s.passes.flatten.filterMap rootItem
  heard := s.received.filterMap rootHeard

/-- Every level does what a lifecycle does. -/
structure Follows (s s' : State R M c) : Prop where
  scopes : ∀ i, Steps generations (life s i) (life s' i)
  root : Steps generations (rootLife s) (rootLife s')

structure Lives (s : State R M c) : Prop where
  scopes : ∀ i, SlotLifecycle.Invariant generations c.scopeCapacity (life s i)
  root : SlotLifecycle.Invariant generations c.rootCapacity (rootLife s)

variable {s s' : State R M c}

theorem follows_refl (hlife : ∀ i, life s' i = life s i) (hroot : rootLife s' = rootLife s) :
    Follows s s' :=
  ⟨fun i => (hlife i).symm ▸ .refl, hroot.symm ▸ .refl⟩

theorem Follows.lives (h : Follows s s') (hl : Lives s) : Lives s' :=
  ⟨fun i => SlotLifecycle.steps_invariant (hl.scopes i) (h.scopes i),
    SlotLifecycle.steps_invariant hl.root h.root⟩

@[simp] theorem eventOf_self {i : Fin c.scopes} {generation : ℕ} {payload : Option (Payload M)} :
    eventOf i ⟨i, generation⟩ payload = some ⟨generation, payload⟩ := if_pos rfl

@[simp] theorem eventOf_other {i j : Fin c.scopes} (h : j ≠ i) {generation : ℕ}
    {payload : Option (Payload M)} : eventOf i ⟨j, generation⟩ payload = none := if_neg h

theorem filterMap_length_cons {α β : Type*} (f : α → Option β) (x : α) (l : List α) :
    ((x :: l).filterMap f).length = (f x).toList.length + (l.filterMap f).length := by
  cases hx : f x with
  | none => simp [hx]
  | some y => simp [hx, add_comm]

theorem length_split {α β γ : Type*} {n : ℕ} (f : α → Option β) (g : Fin n → α → Option γ)
    (h : ∀ x, (f x).toList.length + ∑ i, (g i x).toList.length = 1) (l : List α) :
    l.length = (l.filterMap f).length + ∑ i, (l.filterMap (g i)).length := by
  induction l with
  | nil => simp
  | cons x l ih =>
    have hx := h x
    simp only [filterMap_length_cons, Finset.sum_add_distrib, List.length_cons]
    omega

theorem sum_eventOf (id : ScopeId c.scopes) (payload : Option (Payload M)) :
    ∑ i, (eventOf i id payload).toList.length = 1 := by
  rw [Finset.sum_eq_single id.index]
  · simp [eventOf]
  · intro i _ hi
    simp [eventOf, Ne.symm hi]
  · exact fun hout => absurd (Finset.mem_univ _) hout

theorem items_split (l : List (Item R M c)) :
    l.length = (l.filterMap rootItem).length + ∑ i, (l.filterMap (itemAt i)).length := by
  apply length_split
  intro item
  cases item with
  | root sent => simp [rootItem, itemAt]
  | scope id sent => simpa [rootItem, itemAt] using sum_eventOf id (some (sent.tag Batch.basis))
  | close id => simpa [rootItem, itemAt] using sum_eventOf (M := M) id none

theorem replies_split (l : List (Reply R M c)) :
    l.length = (l.filterMap rootReply).length + ∑ i, (l.filterMap (replyAt i)).length := by
  apply length_split
  intro reply
  cases reply with
  | root receipt => simp [rootReply, replyAt]
  | scope reply =>
    cases reply with
    | receipt id receipt =>
      simpa [rootReply, replyAt, answerAt] using sum_eventOf id (some (receipt.tag Batch.basis))
    | closed id => simpa [rootReply, replyAt, answerAt] using sum_eventOf (M := M) id none

theorem answers_split (l : List (ScopeReply M c)) :
    l.length = ∑ i, (l.filterMap (answerAt i)).length := by
  have hsplit := length_split (fun _ : ScopeReply M c => (none : Option Unit)) answerAt (by
    intro reply
    cases reply with
    | receipt id receipt => simpa [answerAt] using sum_eventOf id (some (receipt.tag Batch.basis))
    | closed id => simpa [answerAt] using sum_eventOf (M := M) id none) l
  simpa using hsplit

/-- The credits of every level, and one more of every scope, bound what its rings hold. -/
theorem lives_load (h : Lives s) : (rootLife s).line.length ≤ c.rootCapacity ∧
    (∑ i, (life s i).line.length) ≤ c.scopeTotal := by
  constructor
  · have hroot := (SlotLifecycle.line_length h.root).2 rfl
    omega
  · calc (∑ i, (life s i).line.length)
        ≤ ∑ _i : Fin c.scopes, (c.scopeCapacity + 1) := by
          apply Finset.sum_le_sum
          intro i _
          have hline := (SlotLifecycle.line_length (h.scopes i)).1
          omega
      _ = c.scopeTotal := by simp [Config.scopeTotal]

theorem commands_split (s : State R M c) : s.commands.items.length + s.staged.length ≤
    (rootLife s).line.length + ∑ i, (life s i).line.length := by
  rw [← List.length_append, items_split]
  apply Nat.add_le_add
  · simp only [Life.line, rootLife, List.filterMap_append, List.length_append]
    omega
  · apply Finset.sum_le_sum
    intro i _
    simp only [Life.line, life, List.filterMap_append, List.length_append]
    omega

theorem commands_room (h : Lives s) :
    s.commands.items.length + s.staged.length ≤ c.commandCapacity := by
  obtain ⟨hroot, hscopes⟩ := lives_load h
  exact (commands_split s).trans (Nat.add_le_add hroot hscopes)

theorem close_room (h : Lives s) {i : Fin c.scopes} (hopen : (s.slots i).state = .opened) :
    s.commands.items.length + s.staged.length < c.commandCapacity := by
  obtain ⟨hroot, _⟩ := lives_load h
  have hscopes : (∑ j, (life s j).line.length) < c.scopeTotal := by
    calc (∑ j, (life s j).line.length)
        < ∑ _j : Fin c.scopes, (c.scopeCapacity + 1) := by
          apply Finset.sum_lt_sum
          · intro j _
            have hline := (SlotLifecycle.line_length (h.scopes j)).1
            omega
          · refine ⟨i, Finset.mem_univ i, ?_⟩
            have hline := (SlotLifecycle.line_length (h.scopes i)).2 hopen
            omega
      _ = c.scopeTotal := by simp [Config.scopeTotal]
  exact (commands_split s).trans_lt (Nat.add_lt_add_of_le_of_lt hroot hscopes)

theorem reply_room (h : Lives s) : s.rootAnswers.items.length +
      (s.replies.filterMap rootReply).length ≤ c.rootCapacity ∧
    s.scopeAnswers.items.length + (∑ i, (s.replies.filterMap (replyAt i)).length) ≤
      c.scopeTotal := by
  obtain ⟨hroot, hscopes⟩ := lives_load h
  constructor
  · refine le_trans ?_ hroot
    simp only [Life.line, rootLife, List.length_append, List.length_map]
    omega
  · refine le_trans ?_ hscopes
    rw [answers_split, ← Finset.sum_add_distrib]
    apply Finset.sum_le_sum
    intro i _
    simp only [Life.line, life, List.length_append]
    omega

end ScopedProjection

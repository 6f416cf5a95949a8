import Kithara.ScopedSteps

/-! What a scoped channel promises: whole passes, one receipt a batch, a last word that a scope
is closed, and a slot as new for the next one. -/
namespace ScopedDelivery

open BoundedRing CommandProtocol CommandDocket CommandLevel TransitionSystem
open ScopedChannel ScopedProjection ScopedSimulation ScopedSteps
open SlotLifecycle (Event ofGeneration)

variable {R M : Protocol} {c : Config} {s : State R M c}

def itemBatch (id : ScopeId c.scopes) : Item R M c → Option (Payload M)
  | .scope id' sent => if id' = id then some (sent.tag Batch.basis) else none
  | _ => none

def answerBatch (id : ScopeId c.scopes) : ScopeReply M c → Option (Payload M)
  | .receipt id' receipt => if id' = id then some (receipt.tag Batch.basis) else none
  | .closed _ => none

def replyBatch (id : ScopeId c.scopes) : Reply R M c → Option (Payload M)
  | .root _ => none
  | .scope reply => answerBatch id reply

def heardBatch (id : ScopeId c.scopes) : ScopedReceipt R M c → Option (Payload M)
  | .scope id' receipt => if id' = id then some (receipt.tag Batch.basis) else none
  | _ => none

def itemRoot : Item R M c → Option (Payload R)
  | .root sent => some (sent.tag Batch.basis)
  | _ => none

def replyRoot : Reply R M c → Option (Payload R)
  | .root receipt => some (receipt.tag Batch.basis)
  | .scope _ => none

def heardRoot : ScopedReceipt R M c → Option (Payload R)
  | .root receipt => some (receipt.tag Batch.basis)
  | _ => none

/-- The batches among some places that hold them, counted. -/
def count {α β : Type*} (f : α → Option β) (l : List α) : Multiset β := (l.filterMap f : List β)

/-- The published batches of a scope that were not answered to the owner yet. -/
def underWay (s : State R M c) (id : ScopeId c.scopes) : Multiset (Payload M) :=
  count (itemBatch id) s.commands.items +
    (if (s.scopes id.index).generation = id.generation then heldBy (s.scopes id.index) else 0) +
    count (replyBatch id) s.replies + count (answerBatch id) s.scopeAnswers.items

def rootUnderWay (s : State R M c) : Multiset (Payload R) :=
  count itemRoot s.commands.items + rootHeld s + count replyRoot s.replies +
    s.rootAnswers.items.map (Receipt.tag Batch.basis)

/-- Every batch published was answered to the owner. -/
structure Answered (s : State R M c) : Prop where
  root : count itemRoot s.passes.flatten = count heardRoot s.received
  scopes : ∀ id, count (itemBatch id) s.passes.flatten = count (heardBatch id) s.received

/-- The last steps of a channel whose inbox is dropped. -/
def Settling : Action R M → Prop
  | .read _ | .popRoot | .popScope | .pop | .reply | .dropInbox | .releaseCommands | .releaseRoot
  | .releaseScopes => True
  | _ => False

/-- A slot given back: all its credits there, and a docket as new on the other side. -/
structure Vacated (s : State R M c) (i : Fin c.scopes) : Prop where
  free : (s.slots i).state = .free
  credits : (s.slots i).book.credits = c.scopeCapacity
  answered : ∀ generation, underWay s ⟨i, generation⟩ = 0
  executor : s.stage ≠ .gone → (s.scopes i).generation = (s.slots i).generation ∧
    heldBy (s.scopes i) = 0 ∧ (s.scopes i).closing = false ∧
    ∀ last ∈ (s.scopes i).docket.ledger.last, last = none

/-- A scope just opened, with nothing of the one before it on either side. -/
structure Fresh (s : State R M c) (i : Fin c.scopes) (targets : ℕ) : Prop where
  opened : (s.slots i).state = .opened
  credits : (s.slots i).book.credits = c.scopeCapacity
  targets : (s.slots i).book.targets = targets
  applied : ∀ last ∈ (s.slots i).book.applied, last = none
  pending : (s.slots i).book.pending = []
  executor : s.stage ≠ .gone → (s.scopes i).generation = (s.slots i).generation ∧
    heldBy (s.scopes i) = 0 ∧ (s.scopes i).closing = false ∧
    ∀ last ∈ (s.scopes i).docket.ledger.last, last = none

structure Delivered (s : State R M c) : Prop where
  whole : s.task = .idle → ∃ k, s.drained = (s.passes.take k).flatten
  root : count itemRoot s.passes.flatten = count heardRoot s.received + rootUnderWay s
  scopes : ∀ id, count (itemBatch id) s.passes.flatten =
    count (heardBatch id) s.received + underWay s id
  settles : s.phase = .idle → s.stage ≠ .live ∨ s.Ready → ∃ as : List (Action R M),
    (∀ a ∈ as, Settling a) ∧ (machine : Machine (State R M c) (Action R M)).ValidTrace s as ∧
      Answered ((machine : Machine (State R M c) (Action R M)).runTrace s as)
  routed : s.stage ≠ .gone → ∀ id sent rest, s.commands.items = .scope id sent :: rest →
    (s.scopes id.index).generation = id.generation
  closedOnce : s.received.Pairwise fun a b => ∀ id, a = .closed id →
    b ≠ .closed id ∧ ∀ receipt, b ≠ .scope id receipt
  closedLast : ∀ id, .closed id ∈ s.received →
    count (itemBatch id) s.passes.flatten = count (heardBatch id) s.received
  closed : ∀ id answers, s.scopeAnswers.tryPop = some (.closed id, answers) →
    Vacated (next s .popScope) id.index
  vacated : ∀ i, (s.slots i).state = .free → Vacated s i
  reopened : ∀ targets i, s.tryOpen targets = .ok i → Fresh (next s (.open targets)) i targets
  publishRoom : s.staged.length ≤ s.vacant
  closeRoom : ∀ i, (s.slots i).state = .opened → s.staged.length < s.vacant

theorem count_events {α β : Type*} {f : α → Option β} {g : α → Option (Event β)} (generation : ℕ)
    (h : ∀ x, f x = (g x).bind fun e => if e.generation = generation then e.payload else none)
    (l : List α) : count f l = ofGeneration generation (l.filterMap g) := by
  rw [count, ofGeneration, List.filterMap_filterMap]
  congr 2
  funext x
  exact h x

theorem eventOf_batch (id id' : ScopeId c.scopes) (payload : Option (Payload M)) :
    ((eventOf id.index id' payload).bind fun e =>
      if e.generation = id.generation then e.payload else none) =
        if id' = id then payload else none := by
  obtain ⟨i, g⟩ := id
  obtain ⟨j, g'⟩ := id'
  by_cases hi : j = i
  · by_cases hg : g' = g
    · simp [eventOf, hi, hg]
    · simp [eventOf, hi, hg]
  · simp [eventOf, hi]

theorem count_items (id : ScopeId c.scopes) (l : List (Item R M c)) :
    count (itemBatch id) l = ofGeneration id.generation (l.filterMap (itemAt id.index)) := by
  apply count_events
  intro item
  cases item with
  | root sent => rfl
  | scope id' sent => exact (eventOf_batch id id' (some (sent.tag Batch.basis))).symm
  | close id' =>
    have hnone := eventOf_batch (M := M) id id' none
    rw [ite_self] at hnone
    exact hnone.symm

theorem count_answers (id : ScopeId c.scopes) (l : List (ScopeReply M c)) :
    count (answerBatch id) l = ofGeneration id.generation (l.filterMap (answerAt id.index)) := by
  apply count_events
  intro reply
  cases reply with
  | receipt id' receipt => exact (eventOf_batch id id' (some (receipt.tag Batch.basis))).symm
  | closed id' =>
    have hnone := eventOf_batch (M := M) id id' none
    rw [ite_self] at hnone
    exact hnone.symm

theorem count_replies (id : ScopeId c.scopes) (l : List (Reply R M c)) :
    count (replyBatch id) l = ofGeneration id.generation (l.filterMap (replyAt id.index)) := by
  apply count_events
  intro reply
  cases reply with
  | root receipt => rfl
  | scope reply =>
    cases reply with
    | receipt id' receipt => exact (eventOf_batch id id' (some (receipt.tag Batch.basis))).symm
    | closed id' =>
      have hnone := eventOf_batch (M := M) id id' none
      rw [ite_self] at hnone
      exact hnone.symm

theorem count_heard (id : ScopeId c.scopes) (l : List (ScopedReceipt R M c)) :
    count (heardBatch id) l = ofGeneration id.generation (l.filterMap (heardAt id.index)) := by
  apply count_events
  intro heard
  cases heard with
  | root receipt => rfl
  | scope id' receipt => exact (eventOf_batch id id' (some (receipt.tag Batch.basis))).symm
  | closed id' =>
    have hnone := eventOf_batch (M := M) id id' none
    rw [ite_self] at hnone
    exact hnone.symm

theorem ofGeneration_append {α : Type*} (g : ℕ) (es ds : List (Event α)) :
    ofGeneration g (es ++ ds) = ofGeneration g es + ofGeneration g ds := by
  simp only [ofGeneration, List.filterMap_append, Multiset.coe_add]

theorem underWay_life (s : State R M c) (id : ScopeId c.scopes) : underWay s id =
    ofGeneration id.generation (life s id.index).out +
      (if (life s id.index).turn = id.generation then (life s id.index).held else 0) +
      ofGeneration id.generation (life s id.index).ring := by
  have hheld : (if (life s id.index).turn = id.generation then (life s id.index).held else 0) =
      if (s.scopes id.index).generation = id.generation then heldBy (s.scopes id.index) else 0 :=
    rfl
  rw [hheld, underWay, count_items, count_answers, count_replies]
  simp only [life, ofGeneration_append]
  abel

theorem scopes_once (h : Lives s) (id : ScopeId c.scopes) :
    count (itemBatch id) s.passes.flatten = count (heardBatch id) s.received + underWay s id := by
  have hconserved := SlotLifecycle.conserved_of (h.scopes id.index).accounted id.generation
  rw [count_items, count_heard, underWay_life, ← add_assoc, ← add_assoc]
  exact hconserved

theorem root_once (h : Lives s) :
    count itemRoot s.passes.flatten = count heardRoot s.received + rootUnderWay s := by
  have hitems (l : List (Item R M c)) : count itemRoot l = ofGeneration 0 (l.filterMap rootItem) :=
    count_events 0 (fun item => by cases item <;> rfl) l
  have hreplies (l : List (Reply R M c)) :
      count replyRoot l = ofGeneration 0 (l.filterMap rootReply) :=
    count_events 0 (fun reply => by cases reply <;> rfl) l
  have hheard (l : List (ScopedReceipt R M c)) :
      count heardRoot l = ofGeneration 0 (l.filterMap rootHeard) :=
    count_events 0 (fun heard => by cases heard <;> rfl) l
  have hanswers (l : List (Receipt R)) : (l.map (Receipt.tag Batch.basis) : Multiset (Payload R)) =
      ofGeneration 0 (l.map fun receipt => rootEvent (receipt.tag Batch.basis)) := by
    simp [ofGeneration, List.filterMap_map, rootEvent]
  have hconserved := SlotLifecycle.conserved_of h.root.accounted 0
  rw [hitems, hheard, rootUnderWay, hitems, hreplies, hanswers]
  simp only [rootLife, ofGeneration_append, if_true] at hconserved
  rw [hconserved, rootHeld]
  abel

theorem answering_of {stage : Stage} (h : stage ≠ .gone) : answering stage = true := by
  cases stage with
  | gone => exact absurd rfl h
  | _ => rfl

theorem routed_same (h : Lives s) (hstage : s.stage ≠ .gone) {id : ScopeId c.scopes}
    {sent : Sent M} {rest : List (Item R M c)} (hitems : s.commands.items = .scope id sent :: rest) :
    (s.scopes id.index).generation = id.generation := by
  have hring : (life s id.index).ring = ⟨id.generation, some (sent.tag Batch.basis)⟩ ::
      rest.filterMap (itemAt id.index) := by
    simp [life, hitems, itemAt, eventOf]
  obtain ⟨hsame, hturn, _⟩ := SlotLifecycle.take_same (h.scopes id.index).ordered
    (answering_of hstage) hring
  exact hturn.trans hsame.symm

theorem vacated_of_free (h : Lives s) {i : Fin c.scopes} (hfree : (s.slots i).state = .free) :
    Vacated s i := by
  have hi := h.scopes i
  obtain ⟨hline, hheld, hclosing⟩ := hi.ordered.free hfree
  obtain ⟨hout, hrest⟩ := List.append_eq_nil_iff.mp hline
  obtain ⟨hring, _⟩ := List.append_eq_nil_iff.mp hrest
  refine ⟨hfree, SlotLifecycle.free_credits hi hfree, fun generation => ?_, fun hstage => ?_⟩
  · rw [underWay_life]
    dsimp only
    rw [hout, hring, hheld, ite_self]
    rfl
  · have halive := answering_of hstage
    refine ⟨hi.ordered.turn halive ?_, hheld, hclosing, ?_⟩
    · rw [hout]
      exact nofun
    · have hclean : isNew (s.scopes i).docket.ledger = true := hi.ordered.clean halive (.inl hfree)
      simpa [isNew] using hclean

theorem closed_vacates (h : Lives s) {id : ScopeId c.scopes}
    {answers : Ring (ScopeReply M c) c.scopeTotal}
    (hpop : s.scopeAnswers.tryPop = some (.closed id, answers)) :
    Vacated (next s .popScope) id.index := by
  have hout : (life s id.index).out = ⟨id.generation, none⟩ ::
      (answers.items.filterMap (answerAt id.index) ++ s.replies.filterMap (replyAt id.index)) := by
    simp [life, Ring.tryPop_eq_some hpop, answerAt, eventOf]
  have hsame : (s.slots id.index).generation = id.generation :=
    (SlotLifecycle.hear_same (h.scopes id.index).ordered hout).symm
  apply vacated_of_free (popScope_follows.lives h)
  simp [next, hpop, State.hearScope, hsame]

theorem open_fresh (h : Lives s) {targets : ℕ} {i : Fin c.scopes}
    (hopen : s.tryOpen targets = .ok i) : Fresh (next s (.open targets)) i targets := by
  obtain ⟨_, hcredits, _, hexecutor⟩ := vacated_of_free h (tryOpen_free hopen)
  simp only [next, hopen]
  constructor
  · simp only [Function.update_self]
  · simpa [CommandChannel.Book.reset] using hcredits
  · simp [CommandChannel.Book.reset]
  · simp [CommandChannel.Book.reset]
  · simp [CommandChannel.Book.reset]
  · simpa using hexecutor

theorem closed_last (h : Lives s) {id : ScopeId c.scopes} (hclosed : .closed id ∈ s.received) :
    count (itemBatch id) s.passes.flatten = count (heardBatch id) s.received := by
  rw [count_items, count_heard]
  have hmem : (⟨id.generation, none⟩ : Event (Payload M)) ∈ (life s id.index).heard := by
    apply List.mem_filterMap.mpr
    exact ⟨.closed id, hclosed, eventOf_self⟩
  exact SlotLifecycle.ended_of (h.scopes id.index) hmem rfl

theorem closed_once (h : Lives s) : s.received.Pairwise fun a b => ∀ id, a = .closed id →
    b ≠ .closed id ∧ ∀ receipt, b ≠ .scope id receipt := by
  apply List.pairwise_iff_forall_sublist.mpr
  rintro a b hsub id rfl
  have horder := List.pairwise_filterMap.mp (h.scopes id.index).recorded.order
  have hab := List.pairwise_iff_forall_sublist.mp horder hsub ⟨id.generation, none⟩ eventOf_self
  constructor
  · rintro rfl
    exact hab ⟨id.generation, none⟩ eventOf_self rfl rfl
  · rintro receipt rfl
    exact hab ⟨id.generation, some (receipt.tag Batch.basis)⟩ eventOf_self rfl rfl

def CanAnswer (s : State R M c) : Prop := ∃ as : List (Action R M), (∀ a ∈ as, Settling a) ∧
  (machine : Machine (State R M c) (Action R M)).ValidTrace s as ∧
    Answered ((machine : Machine (State R M c) (Action R M)).runTrace s as)

theorem canAnswer_next {a : Action R M} (hs : Settling a) (he : ScopedChannel.Enabled s a)
    (h : CanAnswer (next s a)) : CanAnswer s := by
  obtain ⟨as, hall, hv, hanswered⟩ := h
  exact ⟨a :: as, List.forall_mem_cons.mpr ⟨hs, hall⟩, ⟨he, hv⟩, hanswered⟩

theorem settling_sound {a : Action R M} (h : Sound s) (hs : Settling a)
    (he : ScopedChannel.Enabled s a) : Sound (next s a) := by
  apply sound_step a h he
  cases a with
  | «open» targets => cases hs
  | _ => trivial

theorem answered_of_empty (h : Sound s) (hgone : s.stage = .gone) (hcommands : s.commands.items = [])
    (hroot : s.rootAnswers.items = []) (hscope : s.scopeAnswers.items = []) : Answered s := by
  obtain ⟨hrootHeld, hheld⟩ := h.tidy.torn (by rw [hgone]; decide) (by rw [hgone]; decide)
  have hquiet := h.tidy.quiet (Or.inr (Or.inr hgone))
  constructor
  · rw [root_once h.lives, rootUnderWay, hcommands, hrootHeld, hquiet, hroot]
    simp [count]
  · intro id
    rw [scopes_once h.lives, underWay, hcommands, hheld, hquiet, hscope]
    simp [count]

/-- What the rings hold. -/
def load (s : State R M c) : ℕ :=
  s.commands.items.length + s.rootAnswers.items.length + s.scopeAnswers.items.length

theorem recoverOne_load (h : Lives s) : s.recoverOne.commands.items = s.commands.items.tail ∧
    load s.recoverOne = load s := by
  simp only [State.recoverOne]
  cases hpop : s.commands.tryPop with
  | none => simp [Ring.tryPop_eq_none hpop]
  | some r =>
    obtain ⟨item, commands⟩ := r
    have hitems := Ring.tryPop_eq_some hpop
    obtain ⟨hrootFits, hscopeFits⟩ := orphan_fits h hitems
    dsimp only
    cases horphan : item.orphan with
    | root receipt =>
      obtain ⟨answers, hpush⟩ := hrootFits receipt horphan
      simp only [State.pushReply, hpush, load, hitems, Ring.tryPush_eq_some hpush,
        List.length_append, List.length_cons, List.length_nil, List.tail_cons, true_and]
      omega
    | scope reply =>
      obtain ⟨answers, hpush⟩ := hscopeFits reply horphan
      simp only [State.pushReply, hpush, load, hitems, Ring.tryPush_eq_some hpush,
        List.length_append, List.length_cons, List.length_nil, List.tail_cons, true_and]
      omega

theorem recover_load (h : Sound s) (hgone : s.stage = .gone) (n : ℕ) :
    (State.recoverOne^[n] s).commands.items = s.commands.items.drop n ∧
      load (State.recoverOne^[n] s) = load s := by
  induction n with
  | zero => exact ⟨rfl, rfl⟩
  | succ n ih =>
    rw [Function.iterate_succ_apply']
    obtain ⟨hitems, hload⟩ := recoverOne_load (recover_sound h hgone n).1.lives
    rw [hitems, hload, ih.1, ih.2, List.tail_drop]
    exact ⟨rfl, rfl⟩

theorem read_recovers (h : Sound s) (hgone : s.stage = .gone) :
    (next s (.read true)).commands.items = [] ∧ load (next s (.read true)) = load s ∧
      (next s (.read true)).stage = .gone ∧ (next s (.read true)).phase = .reading true := by
  obtain ⟨hitems, hload⟩ := recover_load h hgone s.commands.items.length
  obtain ⟨_, hstage, _⟩ := recover_sound h hgone s.commands.items.length
  simp only [next, State.recoverOrphans, if_pos hgone]
  refine ⟨?_, hload, hstage, trivial⟩
  rw [hitems, List.drop_length]

theorem gone_canAnswer (n : ℕ) (h : Sound s) (hgone : s.stage = .gone) (hidle : s.phase = .idle)
    (hn : load s ≤ n) : CanAnswer s := by
  induction n generalizing s with
  | zero =>
    have hzero : load s = 0 := Nat.le_zero.mp hn
    simp only [load, Nat.add_eq_zero_iff, List.length_eq_zero_iff] at hzero
    exact ⟨[], nofun, trivial, answered_of_empty h hgone hzero.1.1 hzero.1.2 hzero.2⟩
  | succ n ih =>
    have hread : ScopedChannel.Enabled s (.read true) := hidle
    obtain ⟨hitems, hload, hgone₁, hphase₁⟩ := read_recovers h hgone
    have h₁ := settling_sound h (a := .read true) trivial hread
    apply canAnswer_next (a := .read true) trivial hread
    generalize hs₁ : next s (.read true) = s₁ at *
    have hroot : ScopedChannel.Enabled s₁ .popRoot := ⟨true, hphase₁⟩
    have h₂ := settling_sound h₁ (a := .popRoot) trivial hroot
    apply canAnswer_next (a := .popRoot) trivial hroot
    cases hpop : s₁.rootAnswers.tryPop with
    | some r =>
      have hrest := Ring.tryPop_eq_some hpop
      apply ih h₂
      · simpa [next, hphase₁, hpop, State.hearRoot] using hgone₁
      · simp [next, hphase₁, hpop, State.hearRoot]
      · simp only [load, hrest, List.length_cons] at hload
        simp only [next, hphase₁, hpop, State.hearRoot, load]
        simp only [load] at hn
        omega
    | none =>
      have hscopes : ScopedChannel.Enabled (next s₁ .popRoot) .popScope := by
        simp [ScopedChannel.Enabled, next, hphase₁, hpop]
      have h₃ := settling_sound h₂ (a := .popScope) trivial hscopes
      have hnext : next s₁ .popRoot = { s₁ with phase := .readingScopes } := by
        simp [next, hphase₁, hpop]
      cases hpop' : s₁.scopeAnswers.tryPop with
      | some r =>
        obtain ⟨reply, answers⟩ := r
        have hrest := Ring.tryPop_eq_some hpop'
        apply canAnswer_next (a := .popScope) trivial hscopes
        rw [hnext] at h₃ ⊢
        have hheard : (next { s₁ with phase := .readingScopes } .popScope).stage = .gone ∧
            (next { s₁ with phase := .readingScopes } .popScope).phase = .idle ∧
            load (next { s₁ with phase := .readingScopes } .popScope) + 1 = load s₁ := by
          simp only [next, hpop', load, hrest, List.length_cons]
          cases reply with
          | receipt id receipt => exact ⟨hgone₁, trivial, rfl⟩
          | closed id => exact ⟨hgone₁, trivial, rfl⟩
        exact ih h₃ hheard.1 hheard.2.1 (by omega)
      | none =>
        rw [hnext] at h₂ ⊢
        exact ⟨[], nofun, trivial, answered_of_empty h₂ hgone₁ hitems (Ring.tryPop_eq_none hpop)
          (Ring.tryPop_eq_none hpop')⟩

theorem released_canAnswer (h : Sound s) (hidle : s.phase = .idle)
    (hstage : s.stage = .commandsReleased ∨ s.stage = .rootReleased ∨ s.stage = .gone) :
    CanAnswer s := by
  have hlast {x : State R M c} (hx : Sound x) (hxidle : x.phase = .idle)
      (hxstage : x.stage = .rootReleased) : CanAnswer x := by
    have hgone := settling_sound hx (a := .releaseScopes) trivial hxstage
    exact canAnswer_next (a := .releaseScopes) trivial hxstage
      (gone_canAnswer _ hgone rfl hxidle le_rfl)
  rcases hstage with hstage | hstage | hstage
  · have hroot := settling_sound h (a := .releaseRoot) trivial hstage
    exact canAnswer_next (a := .releaseRoot) trivial hstage (hlast hroot hidle rfl)
  · exact hlast h hidle hstage
  · exact gone_canAnswer _ h hstage hidle le_rfl

/-- Work left to a dropped inbox before it releases its rings. -/
def chores (s : State R M c) : ℕ := 2 * s.commands.items.length + s.replies.length

theorem reply_chores {reply : Reply R M c} {rest : List (Reply R M c)}
    (hreplies : s.replies = reply :: rest) : (next s .reply).stage = s.stage ∧
      (next s .reply).phase = s.phase ∧ (next s .reply).replies = rest ∧
        chores (next s .reply) < chores s := by
  simp only [next, hreplies]
  rw [pushReply_eq]
  refine ⟨rfl, rfl, rfl, ?_⟩
  simp only [chores, hreplies, List.length_cons]
  omega

theorem unanswered_canAnswer (n : ℕ) (h : Sound s) (hidle : s.phase = .idle)
    (hstage : s.stage = .unanswered) (hn : s.replies.length ≤ n) : CanAnswer s := by
  induction n generalizing s with
  | zero =>
    have hquiet : s.replies = [] := List.length_eq_zero_iff.mp (Nat.le_zero.mp hn)
    have he : ScopedChannel.Enabled s .releaseCommands := ⟨hstage, hquiet⟩
    have hnext := settling_sound h (a := .releaseCommands) trivial he
    exact canAnswer_next (a := .releaseCommands) trivial he
      (released_canAnswer hnext hidle (.inl rfl))
  | succ n ih =>
    cases hreplies : s.replies with
    | nil => exact ih h hidle hstage (by rw [hreplies]; exact Nat.zero_le n)
    | cons reply rest =>
      have he : ScopedChannel.Enabled s .reply := by
        simp [ScopedChannel.Enabled, hreplies]
      have hnext := settling_sound h (a := .reply) trivial he
      obtain ⟨hs, hp, hr, _⟩ := reply_chores hreplies
      rw [hreplies] at hn
      exact canAnswer_next (a := .reply) trivial he
        (ih hnext (hp.trans hidle) (hs.trans hstage) (hr ▸ Nat.le_of_succ_le_succ hn))

theorem route_fields (s : State R M c) (item : Item R M c) (hquiet : s.replies = []) :
    (s.route item).stage = s.stage ∧ (s.route item).phase = s.phase ∧
      (s.route item).commands = s.commands ∧ (s.route item).replies.length ≤ 1 := by
  cases item with
  | root sent => simp [State.route, hquiet]
  | scope id sent =>
    simp only [State.route]
    split <;> simp [hquiet]
  | close id =>
    simp only [State.route]
    split <;> simp [hquiet]

theorem closed_canAnswer (h : Sound s) (hidle : s.phase = .idle) (hstage : s.stage = .closed) :
    CanAnswer s := by
  induction hn : chores s using Nat.strong_induction_on generalizing s with
  | _ n ih =>
    cases hreplies : s.replies with
    | cons reply rest =>
      have he : ScopedChannel.Enabled s .reply := by
        simp [ScopedChannel.Enabled, hreplies]
      obtain ⟨hs, hp, _, hless⟩ := reply_chores hreplies
      exact canAnswer_next (a := .reply) trivial he (ih _ (hn ▸ hless)
        (settling_sound h (a := .reply) trivial he) (hp.trans hidle) (hs.trans hstage) rfl)
    | nil =>
      have htask := h.tidy.closed hstage
      have he : ScopedChannel.Enabled s .pop := by
        refine ⟨?_, hreplies⟩
        rw [htask]
        exact nofun
      have hsound := settling_sound h (a := .pop) trivial he
      apply canAnswer_next (a := .pop) trivial he
      cases hpop : s.commands.tryPop with
      | none =>
        have hnext : (next s .pop).stage = .unanswered ∧ (next s .pop).phase = s.phase := by
          simp [next, hpop, State.finish, htask, State.turnAll]
        exact unanswered_canAnswer _ hsound (hnext.2.trans hidle) hnext.1 le_rfl
      | some r =>
        obtain ⟨item, commands⟩ := r
        have hrest := Ring.tryPop_eq_some hpop
        have hnext : next s .pop =
            { s with commands := commands, drained := s.drained ++ [item] }.route item := by
          simp [next, hpop]
        obtain ⟨hs, hp, hc, hr⟩ := route_fields
          { s with commands := commands, drained := s.drained ++ [item] } item hreplies
        rw [← hnext] at hs hp hc hr
        refine ih _ ?_ hsound (hp.trans hidle) (hs.trans hstage) rfl
        rw [← hn]
        simp only [chores, hc, hrest, hreplies, List.length_cons, List.length_nil]
        omega

/-- A dropped inbox, or one dropped now, leaves no batch without a receipt. -/
theorem settles_of (h : Sound s) (hidle : s.phase = .idle) (hdrop : s.stage ≠ .live ∨ s.Ready) :
    CanAnswer s := by
  rcases hdrop with hstage | hready
  · cases hs : s.stage with
    | live => exact absurd hs hstage
    | closed => exact closed_canAnswer h hidle hs
    | unanswered => exact unanswered_canAnswer _ h hidle hs le_rfl
    | commandsReleased => exact released_canAnswer h hidle (.inl hs)
    | rootReleased => exact released_canAnswer h hidle (.inr (.inl hs))
    | gone => exact released_canAnswer h hidle (.inr (.inr hs))
  · have hnext := settling_sound h (a := .dropInbox) trivial hready
    exact canAnswer_next (a := .dropInbox) trivial hready (closed_canAnswer hnext hidle rfl)

theorem delivered_of (h : Sound s) : Delivered s where
  whole := h.tidy.whole
  root := root_once h.lives
  scopes := scopes_once h.lives
  settles := settles_of h
  routed := fun hstage _ _ _ hitems => routed_same h.lives hstage hitems
  closedOnce := closed_once h.lives
  closedLast := fun _ hclosed => closed_last h.lives hclosed
  closed := fun _ _ hpop => closed_vacates h.lives hpop
  vacated := fun _ hfree => vacated_of_free h.lives hfree
  reopened := fun _ _ hopen => open_fresh h.lives hopen
  publishRoom := by
    have hroom := commands_room h.lives
    simp only [State.vacant]
    omega
  closeRoom := fun i hopen => by
    have hroom := close_room h.lives hopen
    simp only [State.vacant]
    omega

theorem scoped_delivery (as : List (Action R M))
    (hv : (machine : Machine (State R M c) (Action R M)).ValidTrace start as)
    (hf : (machine : Machine (State R M c) (Action R M)).Along FewReuses start as) :
    Delivered ((machine : Machine (State R M c) (Action R M)).runTrace start as) :=
  delivered_of (run_sound hv hf)

/-- Levels of one target that count frames. -/
def frameLevel : Protocol where
  Applied := Unit
  Clock := ℕ
  Command := ℕ
  Refusal := Unit
  Target := Unit
  index _ := 0
  framesSince moment start := if moment < start then none else some (moment - start)

def oneSlot : Config :=
  { rootCapacity := 1, rootTargets := 1, scopes := 1, scopeCapacity := 1, scopeTargets := 1 }

/-- A scope that is closed in the pass of its only batch, retired unread and opened again. -/
def reopeningTrace : List (Action frameLevel frameLevel) :=
  [.open 1, .enterScope 0 0 .next ⟨[((), none)], [(7 : ℕ)]⟩, .push, .close 0 0, .publish,
    .enterGate, .pushPass, .begin .retireClosing, .pop, .pop, .pop, .reply, .reply, .read true,
    .popRoot, .popScope, .read true, .popRoot, .popScope, .open 1]

theorem scoped_delivery_reopening : Delivered
    ((machine : Machine (State frameLevel frameLevel oneSlot) _).runTrace start reopeningTrace) := by
  apply scoped_delivery
  · exact ⟨rfl, rfl, .inr ⟨⟨0, Nat.one_pos⟩, _, _, rfl⟩, rfl, rfl, rfl, rfl,
      ⟨⟨rfl, rfl, ⟨rfl, fun _ => rfl⟩, rfl⟩, nofun, nofun⟩, ⟨nofun, rfl⟩, ⟨nofun, rfl⟩, ⟨nofun, rfl⟩,
      nofun, nofun, rfl, ⟨true, rfl⟩, rfl, rfl, ⟨true, rfl⟩, rfl, rfl, trivial⟩
  · refine ⟨fun _ _ => Nat.two_pow_pos 32, trivial, trivial, trivial, trivial, trivial, trivial,
      trivial, trivial, trivial, trivial, trivial, trivial, trivial, trivial, trivial, trivial,
      trivial, trivial, fun i _ => ?_, trivial⟩
    exact (List.length_filter_le _ _).trans_lt (by decide)

end ScopedDelivery

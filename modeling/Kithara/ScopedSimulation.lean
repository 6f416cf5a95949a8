import Kithara.ScopedProjection

/-! Every step of a scoped channel is a step, or some, of the lifecycle of each of its levels,
while what they hold fits the rings. -/
namespace ScopedSimulation

open BoundedRing CommandProtocol CommandDocket CommandLevel TransitionSystem
open ScopedChannel ScopedProjection
open CommandChannel (Book SendError)
open SlotLifecycle (Event Life Phase Step Steps)

variable {R M P : Protocol} {c : Config}

def rootHeld (s : State R M c) : Multiset (Payload R) :=
  s.rootDocket.content Batch.basis + s.rootHand.content Batch.basis

/-- What holds of the two threads' progress, and of the passes taken off the ring. -/
structure Tidy (s : State R M c) : Prop where
  admitted : ∀ i when batch, s.phase = .scopeAdmitted i when batch → (s.slots i).state = .opened
  lost : s.lost ≠ [] → s.gateClosed = true ∧ s.phase ≠ .publishing
  hands : s.task ≠ .idle → (s.stage = .live ∨ s.stage = .closed) ∧ s.HandsEmpty
  closed : s.stage = .closed → s.task = .teardown
  torn : s.stage ≠ .live → s.stage ≠ .closed →
    rootHeld s = 0 ∧ ∀ i, heldBy (s.scopes i) = 0
  quiet : s.stage = .commandsReleased ∨ s.stage = .rootReleased ∨ s.stage = .gone →
    s.replies = []
  flow : s.passes.flatten = s.drained ++ s.recovered ++ s.commands.items
  recovered : s.stage ≠ .gone → s.recovered = []
  whole : s.task = .idle → ∃ k, s.drained = (s.passes.take k).flatten

structure Sound (s : State R M c) : Prop where
  tidy : Tidy s
  lives : Lives s

def endsSlot (i : Fin c.scopes) : ScopedReceipt R M c → Bool
  | .closed id => id.index = i
  | _ => false

/-- A slot is opened at most 2^32 times: it is reused fewer times than its generations. -/
def FewReuses (s : State R M c) : Action R M → Prop
  | .open targets => ∀ i, s.tryOpen targets = .ok i →
    (s.received.filter (endsSlot i)).length < generations
  | _ => True

variable {s s' : State R M c}

theorem closings_eq (s : State R M c) (i : Fin c.scopes) :
    (life s i).closings = (s.received.filter (endsSlot i)).length := by
  simp only [Life.closings, life, SlotLifecycle.ends]
  induction s.received with
  | nil => rfl
  | cons heard rest ih =>
    cases heard with
    | root receipt => simpa [List.filterMap_cons, heardAt, endsSlot] using ih
    | scope id receipt =>
      by_cases hi : id.index = i
      · simpa [List.filterMap_cons, heardAt, eventOf, hi, endsSlot] using ih
      · simpa [List.filterMap_cons, heardAt, eventOf, hi, endsSlot] using ih
    | closed id =>
      by_cases hi : id.index = i
      · simpa [List.filterMap_cons, heardAt, eventOf, hi, endsSlot] using ih
      · simpa [List.filterMap_cons, heardAt, eventOf, hi, endsSlot] using ih

theorem tryOpen_free {targets : ℕ} {i : Fin c.scopes} (h : s.tryOpen targets = .ok i) :
    (s.slots i).state = .free := by
  simp only [State.tryOpen] at h
  split at h
  · cases h
  · cases hfind : (List.finRange c.scopes).find? fun i => (s.slots i).state = .free with
    | none =>
      rw [hfind] at h
      cases h
    | some j =>
      rw [hfind] at h
      have hfree := List.find?_some hfind
      rw [Except.ok.inj h] at hfree
      exact of_decide_eq_true hfree

theorem steps_of_eq {α : Type*} {x y z : Life α} (heq : y = z) (st : Step generations x z) :
    Steps generations x y := heq ▸ .single st

theorem open_follows (targets : ℕ) (hf : FewReuses s (.open targets)) :
    Follows s (next s (.open targets)) := by
  simp only [next]
  cases hopen : s.tryOpen targets with
  | error e => exact follows_refl (fun _ => rfl) rfl
  | ok i =>
    refine ⟨fun j => ?_, .refl⟩
    by_cases hj : j = i
    · subst hj
      refine steps_of_eq ?_ (Step.opens (life s j) (tryOpen_free hopen)
        (closings_eq s j ▸ hf j hopen))
      simp [life, Book.reset]
    · simpa [life, Function.update_of_ne hj] using Relation.ReflTransGen.refl

theorem follows_scope (i : Fin c.scopes) (hi : Steps generations (life s i) (life s' i))
    (hother : ∀ j, j ≠ i → life s' j = life s j) (hroot : rootLife s' = rootLife s) :
    Follows s s' := by
  refine ⟨fun j => ?_, hroot.symm ▸ .refl⟩
  by_cases hj : j = i
  · exact hj ▸ hi
  · exact (hother j hj).symm ▸ .refl

theorem push_ok {book book' : Book P} {when : When P.Clock} {batch : Batch P} {sent : Sent P}
    (h : s.push book when batch = .ok (sent, book')) :
    book.credits ≠ 0 ∧ sent.tag Batch.basis = (s.nextSeq, batch.basis) ∧
      book' = book.spend when s.nextSeq batch.basis ∧
      s.commands.items.length + s.staged.length < c.commandCapacity := by
  simp only [State.push] at h
  split at h
  · cases h
  · split at h
    · cases h
    · rename_i hfull
      obtain ⟨rfl, rfl⟩ := Prod.mk.inj (Except.ok.inj h)
      simp only [State.vacant, not_or] at hfull
      exact ⟨hfull.1, rfl, rfl, by omega⟩

theorem spend_credits (b : Book P) (when : When P.Clock) (seq : ℕ)
    (basis : List (P.Target × Option ℕ)) : (b.spend when seq basis).credits = b.credits - 1 := by
  simp only [Book.spend]
  split <;> rfl

theorem push_follows (ht : Tidy s) : Follows s (next s .push) := by
  simp only [next]
  cases hphase : s.phase with
  | rootAdmitted when batch =>
    dsimp only
    cases hpush : s.push s.root when batch with
    | error e => exact follows_refl (fun _ => rfl) rfl
    | ok r =>
      obtain ⟨sent, book⟩ := r
      obtain ⟨hcredits, _, rfl, _⟩ := push_ok hpush
      refine ⟨fun i => ?_, ?_⟩
      · simpa [life, List.filterMap_cons, itemAt] using Relation.ReflTransGen.refl
      · refine steps_of_eq ?_ (Step.stage (rootLife s) (sent.tag Batch.basis) rfl hcredits)
        simp [rootLife, rootItem, rootEvent, spend_credits]
  | scopeAdmitted i when batch =>
    dsimp only
    cases hpush : s.push (s.slots i).book when batch with
    | error e => exact follows_refl (fun _ => rfl) rfl
    | ok r =>
      obtain ⟨sent, book⟩ := r
      obtain ⟨hcredits, _, rfl, _⟩ := push_ok hpush
      refine follows_scope i ?_ (fun j hj => ?_) ?_
      · refine steps_of_eq ?_ (Step.stage (life s i) (sent.tag Batch.basis)
          (ht.admitted i when batch hphase) hcredits)
        simp [life, itemAt, State.slotId, spend_credits]
      · simp [life, itemAt, State.slotId, eventOf, Function.update_of_ne hj, Ne.symm hj]
      · simp [rootLife, List.filterMap_cons, rootItem]
  | _ => exact follows_refl (fun _ => rfl) rfl

theorem close_follows (index generation : ℕ) :
    Follows s (next s (.close index generation)) := by
  simp only [next]
  cases State.slot? (c := c) index with
  | none => exact follows_refl (fun _ => rfl) rfl
  | some i =>
    dsimp only
    split
    · exact follows_refl (fun _ => rfl) rfl
    · rename_i hopen
      simp only [not_or, not_not] at hopen
      refine follows_scope i ?_ (fun j hj => ?_) ?_
      · refine steps_of_eq ?_ (Step.close (life s i) hopen.2)
        simp [life, itemAt, State.slotId]
      · simp [life, itemAt, State.slotId, eventOf, Function.update_of_ne hj, Ne.symm hj]
      · simp [rootLife, List.filterMap_cons, rootItem]

theorem discard_follows (s : State R M c) : Follows s s.discard := by
  refine ⟨fun i => ?_, ?_⟩
  · refine steps_of_eq ?_ (Step.discard (life s i))
    simp [life, State.discard]
  · refine steps_of_eq ?_ (Step.discard (rootLife s))
    simp [rootLife, State.discard]

theorem pass_fits (h : Lives s) : s.staged.take s.vacant = s.staged ∧
    s.staged.drop s.vacant = [] := by
  have hroom := commands_room h
  have hfits : s.staged.length ≤ s.vacant := by
    simp only [State.vacant]
    omega
  exact ⟨List.take_of_length_le hfits, List.drop_eq_nil_of_le hfits⟩

theorem pushPass_follows (h : Sound s) (hphase : s.phase = .publishing) :
    Follows s s.pushPass := by
  obtain ⟨htake, hdrop⟩ := pass_fits h.lives
  have hlost : s.lost = [] := by
    by_contra hne
    exact (h.tidy.lost hne).2 hphase
  refine ⟨fun i => ?_, ?_⟩
  · refine steps_of_eq ?_ (Step.publish (life s i) (by simp [life, hlost]))
    simp [life, State.pushPass, htake, hdrop]
  · refine steps_of_eq ?_ (Step.publish (rootLife s) (by simp [rootLife, hlost]))
    simp [rootLife, State.pushPass, htake, hdrop]

theorem pushReply_root {receipt : Receipt R} (h : Lives s) (rest : List (Reply R M c))
    (hreplies : s.replies = .root receipt :: rest) :
    ∃ answers, s.rootAnswers.tryPush receipt = some answers := by
  have hroom := (reply_room h).1
  rw [hreplies, filterMap_length_cons] at hroom
  apply Ring.tryPush_isSome
  simp only [rootReply, Option.toList_some, List.length_singleton] at hroom
  omega

theorem pushReply_scope {reply : ScopeReply M c} (h : Lives s) (rest : List (Reply R M c))
    (hreplies : s.replies = .scope reply :: rest) :
    ∃ answers, s.scopeAnswers.tryPush reply = some answers := by
  have hroom := (reply_room h).2
  have hsplit := replies_split s.replies
  have hroot : (s.replies.filterMap rootReply).length ≤ rest.length := by
    rw [hreplies, List.filterMap_cons_none rfl]
    exact List.length_filterMap_le _ _
  rw [hreplies, List.length_cons, ← hreplies] at hsplit
  exact Ring.tryPush_isSome (by omega)

theorem reply_follows (h : Lives s) : Follows s (next s .reply) := by
  simp only [next]
  cases hreplies : s.replies with
  | nil => exact follows_refl (fun _ => rfl) rfl
  | cons reply rest =>
    cases reply with
    | root receipt =>
      obtain ⟨answers, hpush⟩ := pushReply_root h rest hreplies
      have hitems := Ring.tryPush_eq_some hpush
      refine follows_refl (fun i => ?_) ?_
      · simp [life, State.pushReply, hpush, hreplies, List.filterMap_cons, replyAt]
      · simp [rootLife, State.pushReply, hpush, hreplies, rootReply, hitems]
    | scope reply =>
      obtain ⟨answers, hpush⟩ := pushReply_scope h rest hreplies
      have hitems := Ring.tryPush_eq_some hpush
      refine follows_refl (fun i => ?_) ?_
      · cases ha : answerAt i reply with
        | none =>
          simp [life, State.pushReply, hpush, hreplies, replyAt, hitems, ha]
        | some e =>
          simp [life, State.pushReply, hpush, hreplies, replyAt, hitems, ha]
      · simp [rootLife, State.pushReply, hpush, hreplies, List.filterMap_cons, rootReply]

theorem popRoot_follows : Follows s (next s .popRoot) := by
  simp only [next]
  cases hphase : s.phase with
  | reading scopes =>
    dsimp only
    cases hpop : s.rootAnswers.tryPop with
    | none => exact follows_refl (fun _ => rfl) rfl
    | some r =>
      obtain ⟨receipt, answers⟩ := r
      have hitems := Ring.tryPop_eq_some hpop
      refine ⟨fun i => ?_, ?_⟩
      · simpa [life, State.hearRoot, List.filterMap_cons, heardAt] using Relation.ReflTransGen.refl
      · refine steps_of_eq ?_ (Step.hear (rootLife s) (rootEvent (receipt.tag Batch.basis)) _ (by
          simp [rootLife, hitems]
          rfl))
        simp [rootLife, State.hearRoot, Life.hear, rootEvent, rootHeard, Book.settle]
  | _ => exact follows_refl (fun _ => rfl) rfl

theorem popScope_follows : Follows s (next s .popScope) := by
  simp only [next]
  cases hpop : s.scopeAnswers.tryPop with
  | none => exact follows_refl (fun _ => rfl) rfl
  | some r =>
    obtain ⟨reply, answers⟩ := r
    have hitems := Ring.tryPop_eq_some hpop
    cases reply with
    | receipt id receipt =>
      refine follows_scope id.index ?_ (fun j hj => ?_) ?_
      · refine steps_of_eq ?_ (Step.hear (life s id.index)
          ⟨id.generation, some (receipt.tag Batch.basis)⟩
          (answers.items.filterMap (answerAt id.index) ++
            s.replies.filterMap (replyAt id.index)) (by
              simp [life, hitems, answerAt, eventOf]))
        by_cases hsame : (s.slots id.index).generation = id.generation
        · simp [life, State.hearScope, Life.hear, hsame, heardAt, eventOf, Book.settle]
        · simp [life, State.hearScope, Life.hear, hsame, heardAt, eventOf]
      · have hother : eventOf j id (some (receipt.tag Batch.basis)) = none :=
          if_neg (Ne.symm hj)
        by_cases hsame : (s.slots id.index).generation = id.generation
        · simp [life, State.hearScope, hitems, hsame, answerAt, heardAt, hother,
            Function.update_of_ne hj]
        · simp [life, State.hearScope, hitems, hsame, answerAt, heardAt, hother]
      · simp [rootLife, State.hearScope, List.filterMap_cons, rootHeard]
    | closed id =>
      refine follows_scope id.index ?_ (fun j hj => ?_) ?_
      · refine steps_of_eq ?_ (Step.hear (life s id.index) ⟨id.generation, none⟩
          (answers.items.filterMap (answerAt id.index) ++
            s.replies.filterMap (replyAt id.index)) (by
              simp [life, hitems, answerAt, eventOf]))
        by_cases hsame : (s.slots id.index).generation = id.generation
        · simp [life, State.hearScope, Life.hear, hsame, heardAt, eventOf]
        · simp [life, State.hearScope, Life.hear, hsame, heardAt, eventOf]
      · have hother : eventOf (M := M) j id none = none := if_neg (Ne.symm hj)
        by_cases hsame : (s.slots id.index).generation = id.generation
        · simp [life, State.hearScope, hitems, hsame, answerAt, heardAt, hother,
            Function.update_of_ne hj]
        · simp [life, State.hearScope, hitems, hsame, answerAt, heardAt, hother]
      · simp [rootLife, State.hearScope, List.filterMap_cons, rootHeard]

theorem route_follows (halive : s.stage ≠ .gone) (hquiet : s.replies = []) {item : Item R M c}
    {commands : Ring (Item R M c) c.commandCapacity} (hpop : s.commands.tryPop = some (item, commands)) :
    Follows s ({ s with commands := commands, drained := s.drained ++ [item] }.route item) := by
  have hitems := Ring.tryPop_eq_some hpop
  have hanswering : answering s.stage = true := by
    cases hstage : s.stage with
    | gone => exact absurd hstage halive
    | _ => rfl
  cases item with
  | root sent =>
    refine ⟨fun i => ?_, ?_⟩
    · simpa [life, State.route, hitems, List.filterMap_cons, itemAt] using Relation.ReflTransGen.refl
    · refine steps_of_eq ?_ (Step.take (rootLife s) (rootEvent (sent.tag Batch.basis))
        (commands.items.filterMap rootItem) hanswering (by simp [rootLife, hitems, rootItem]))
      simp [rootLife, State.route, Life.take, rootEvent, Docket.content_insert]
  | scope id sent =>
    have hring : (life s id.index).ring = ⟨id.generation, some (sent.tag Batch.basis)⟩ ::
        commands.items.filterMap (itemAt id.index) := by
      simp [life, hitems, itemAt, eventOf]
    refine follows_scope id.index ?_ (fun j hj => ?_) ?_
    · refine steps_of_eq ?_ (Step.take (life s id.index) _ _ hanswering hring)
      by_cases hsame : (s.scopes id.index).generation = id.generation
      · simp [life, State.route, Life.take, hsame, heldBy, Docket.content_insert,
          Docket.insert_ledger]
      · simp [life, State.route, Life.take, hsame, hquiet, replyAt, answerAt, eventOf, Sent.unanswered]
    · have hother : eventOf j id (some (sent.tag Batch.basis)) = none := if_neg (Ne.symm hj)
      by_cases hsame : (s.scopes id.index).generation = id.generation
      · simp [life, State.route, hsame, hitems, itemAt, hother, Function.update_of_ne hj]
      · simp [life, State.route, hsame, hitems, hquiet, itemAt, replyAt, answerAt, hother, Sent.unanswered]
    · by_cases hsame : (s.scopes id.index).generation = id.generation
      · simp [rootLife, State.route, hsame, hitems, List.filterMap_cons, rootItem]
      · simp [rootLife, State.route, hsame, hitems, hquiet, List.filterMap_cons, rootItem, rootReply]
  | close id =>
    have hring : (life s id.index).ring = ⟨id.generation, none⟩ ::
        commands.items.filterMap (itemAt id.index) := by
      simp [life, hitems, itemAt, eventOf]
    refine follows_scope id.index ?_ (fun j hj => ?_) ?_
    · refine steps_of_eq ?_ (Step.take (life s id.index) _ _ hanswering hring)
      by_cases hsame : (s.scopes id.index).generation = id.generation
      · simp [life, State.route, Life.take, hsame, heldBy]
      · simp [life, State.route, Life.take, hsame]
    · have hother : eventOf (M := M) j id none = none := if_neg (Ne.symm hj)
      by_cases hsame : (s.scopes id.index).generation = id.generation
      · simp [life, State.route, hsame, hitems, itemAt, hother, Function.update_of_ne hj]
      · simp [life, State.route, hsame, hitems, itemAt, hother]
    · by_cases hsame : (s.scopes id.index).generation = id.generation
      · simp [rootLife, State.route, hsame, hitems, List.filterMap_cons, rootItem]
      · simp [rootLife, State.route, hsame, hitems, List.filterMap_cons, rootItem]

/-- What a turn of one scope does to its life. -/
def afterTurn (x : Life (Payload M)) (i : Fin c.scopes) (turn : ScopeTurn M c) : Life (Payload M) :=
  { x with
    held := heldBy turn.1
    turn := turn.1.generation
    closing := turn.1.closing
    clean := isNew turn.1.docket.ledger
    out := x.out ++ turn.2.filterMap (answerAt i) }

/-- Every reply of the turn is of its own scope. -/
def Own (i : Fin c.scopes) (turn : ScopeTurn M c) : Prop :=
  ∀ j, j ≠ i → turn.2.filterMap (answerAt j) = []

theorem filterMap_map_some {α β γ : Type*} {f : α → β} {g : β → Option γ} {k : α → γ}
    (h : ∀ x, g (f x) = some (k x)) (l : List α) : (l.map f).filterMap g = l.map k := by
  rw [List.filterMap_map, ← List.filterMap_eq_map]
  congr 1
  funext x
  exact h x

theorem turnOne_follows (hquiet : s.replies = []) {i : Fin c.scopes} {turn : ScopeTurn M c}
    (hown : Own i turn) (hi : Steps generations (life s i) (afterTurn (life s i) i turn)) :
    Follows s (s.turnOne i turn) := by
  have hat (j : Fin c.scopes) : (turn.2.map Reply.scope).filterMap (replyAt (R := R) j) =
      turn.2.filterMap (answerAt j) := by
    rw [List.filterMap_map]
    rfl
  refine follows_scope i ?_ (fun j hj => ?_) ?_
  · have heq : life (s.turnOne i turn) i = afterTurn (life s i) i turn := by
      simp [life, State.turnOne, afterTurn, hquiet, hat]
    rw [heq]
    exact hi
  · simp [life, State.turnOne, hquiet, hat, hown j hj, Function.update_of_ne hj]
  · have hroot : (turn.2.map (Reply.scope (R := R))).filterMap rootReply = [] := by
      rw [List.filterMap_map]
      exact List.filterMap_eq_nil_iff.mpr fun _ _ => rfl
    simp [rootLife, State.turnOne, hquiet, hroot]

theorem flatMap_single {α β : Type*} {l : List α} (hl : l.Nodup) {a : α} (ha : a ∈ l)
    {f : α → List β} (hf : ∀ b ∈ l, b ≠ a → f b = []) : l.flatMap f = f a := by
  induction l with
  | nil => exact absurd ha List.not_mem_nil
  | cons b l ih =>
    rw [List.flatMap_cons]
    by_cases hb : b = a
    · have hrest : l.flatMap f = [] := by
        apply List.flatMap_eq_nil_iff.mpr
        intro d hd
        apply hf d (List.mem_cons_of_mem _ hd)
        rintro rfl
        exact (List.nodup_cons.mp hl).1 (hb ▸ hd)
      rw [hrest, List.append_nil, hb]
    · have hin : a ∈ l := (List.mem_cons.mp ha).resolve_left fun h => hb h.symm
      rw [hf b List.mem_cons_self hb, List.nil_append]
      exact ih (List.nodup_cons.mp hl).2 hin fun d hd => hf d (List.mem_cons_of_mem _ hd)

theorem turnAll_follows (hquiet : s.replies = []) (halive : answering s.stage = true)
    {root : Turn R} {turn : Fin c.scopes → ScopeDocket M → ScopeTurn M c}
    (hroot : root.content Batch.basis = rootHeld s) (hown : ∀ i, Own i (turn i (s.scopes i)))
    (hturn : ∀ i, Steps generations (life s i) (afterTurn (life s i) i (turn i (s.scopes i)))) :
    Follows s (s.turnAll root turn) := by
  refine ⟨fun i => ?_, ?_⟩
  · have hscopes : ((List.finRange c.scopes).flatMap fun j =>
        (turn j (s.scopes j)).2.map (Reply.scope (R := R))).filterMap (replyAt i) =
          (turn i (s.scopes i)).2.filterMap (answerAt i) := by
      rw [List.filterMap_flatMap, flatMap_single (List.nodup_finRange _) (List.mem_finRange i)]
      · rw [List.filterMap_map]
        rfl
      · intro j _ hj
        rw [List.filterMap_map]
        exact hown j i (Ne.symm hj)
    have hroots : (root.replies.map (Reply.root (M := M) (c := c))).filterMap (replyAt i) = [] := by
      rw [List.filterMap_map]
      exact List.filterMap_eq_nil_iff.mpr fun _ _ => rfl
    have heq : life (s.turnAll root turn) i = afterTurn (life s i) i (turn i (s.scopes i)) := by
      simp [life, State.turnAll, afterTurn, hquiet, hscopes, hroots]
    rw [heq]
    exact hturn i
  · have htags : ((root.replies.map (Receipt.tag Batch.basis)).map fun a => rootEvent a) =
        root.replies.map fun receipt => rootEvent (receipt.tag Batch.basis) := by
      rw [List.map_map]
      rfl
    have hreplies : (root.replies.map (Reply.root (M := M) (c := c))).filterMap rootReply =
        root.replies.map fun receipt => rootEvent (receipt.tag Batch.basis) := by
      apply filterMap_map_some
      exact fun _ => rfl
    have hscopes : ((List.finRange c.scopes).flatMap fun j =>
        (turn j (s.scopes j)).2.map (Reply.scope (R := R))).filterMap rootReply = [] := by
      rw [List.filterMap_flatMap]
      apply List.flatMap_eq_nil_iff.mpr
      intro j _
      rw [List.filterMap_map]
      exact List.filterMap_eq_nil_iff.mpr fun _ _ => rfl
    have hanswers := SlotLifecycle.answer_all (m := generations) (s := rootLife s) halive
      (root.replies.map (Receipt.tag Batch.basis))
      (root.docket.content Batch.basis + root.hand.content Batch.basis) hroot.symm
    have heq : rootLife (s.turnAll root turn) = { rootLife s with
        held := root.docket.content Batch.basis + root.hand.content Batch.basis
        out := (rootLife s).out ++ (root.replies.map (Receipt.tag Batch.basis)).map fun a =>
          rootEvent a } := by
      simp [rootLife, State.turnAll, hquiet, hreplies, hscopes, htags]
    rw [heq]
    exact hanswers

/-- A turn of one scope answers some of what it holds, and may change the ledger if it holds
something. -/
theorem take_steps {i : Fin c.scopes} (halive : answering s.stage = true) {t : Turn M}
    (hcontent : t.content Batch.basis = heldBy (s.scopes i))
    (hledger : heldBy (s.scopes i) = 0 → t.docket.ledger = (s.scopes i).docket.ledger) :
    Steps generations (life s i) (afterTurn (life s i) i ((s.scopes i).take i t)) := by
  have hanswers (x : Life (Payload M)) (hx : x.alive = true) (hheld : x.held = heldBy (s.scopes i)) :=
    SlotLifecycle.answer_all (m := generations) (s := x) hx
      (t.replies.map (Receipt.tag Batch.basis))
      (t.docket.content Batch.basis + t.hand.content Batch.basis) (hheld.trans hcontent.symm)
  have hout : (t.replies.map (ScopeReply.receipt ⟨i, (s.scopes i).generation⟩)).filterMap
      (answerAt i) = (t.replies.map (Receipt.tag Batch.basis)).map fun a =>
        (⟨(s.scopes i).generation, some a⟩ : Event (Payload M)) := by
    rw [List.map_map]
    apply filterMap_map_some
    exact fun _ => eventOf_self
  have hafter : afterTurn (life s i) i ((s.scopes i).take i t) = { life s i with
      held := t.docket.content Batch.basis + t.hand.content Batch.basis
      clean := isNew t.docket.ledger
      out := (life s i).out ++ (t.replies.map (Receipt.tag Batch.basis)).map fun a =>
        ⟨(s.scopes i).generation, some a⟩ } := by
    simp only [afterTurn, ScopeDocket.take, hout]
    rfl
  rw [hafter]
  by_cases hheld : heldBy (s.scopes i) = 0
  · have hclean : isNew t.docket.ledger = (life s i).clean := by
      rw [hledger hheld]
      rfl
    rw [hclean]
    exact hanswers (life s i) halive rfl
  · have hscratch := Step.scratch (m := generations) (life s i) (isNew t.docket.ledger) hheld
    exact (Relation.ReflTransGen.single hscratch).trans (hanswers _ halive rfl)

theorem take_own (i : Fin c.scopes) (scope : ScopeDocket M) (t : Turn M) :
    Own i (scope.take i t) := by
  intro j hj
  simp only [ScopeDocket.take]
  rw [List.filterMap_map]
  exact List.filterMap_eq_nil_iff.mpr fun _ _ => eventOf_other (Ne.symm hj)

theorem content_hand {hand : Hand P} (h : hand.content Batch.basis = 0) : hand = .empty := by
  cases hand with
  | empty => rfl
  | due held => exact absurd h (Multiset.singleton_ne_zero _)
  | deferred held => exact absurd h (Multiset.singleton_ne_zero _)

theorem call_content {d : Docket P} {hand : Hand P} {call : Call P} (h : call.Allowed hand) :
    (call.run d hand).content Batch.basis =
      d.content Batch.basis + hand.content Batch.basis := by
  have unseen (edit : List P.Command → List P.Command) (batch : Batch P) :
      Batch.basis { batch with commands := edit batch.commands } = batch.basis := rfl
  have start {t : Turn P} (hempty : hand = .empty)
      (ht : t.content Batch.basis = d.content Batch.basis) :
      t.content Batch.basis = d.content Batch.basis + hand.content Batch.basis := by
    rw [ht, hempty]
    exact (add_zero _).symm
  cases call with
  | nextDue start' frames => exact start h (takeDue_content d start' frames)
  | nextDeferred => exact start h (takeDeferred_content d)
  | resume seq start' moment => exact start h (takeParked_content d seq start' moment)
  | complete seq data => exact complete_content d hand seq data
  | apply data =>
    obtain ⟨held, rfl⟩ := h
    exact held.apply_content d data
  | refuse refusal =>
    cases hand with
    | empty => exact absurd rfl h
    | due held => exact held.answer_content d _
    | deferred held => exact held.answer_content d _
  | defer =>
    obtain ⟨held, rfl⟩ := h
    exact held.defer_content d
  | commit =>
    obtain ⟨held, rfl⟩ := h
    exact held.commit_content d
  | park =>
    obtain ⟨held, rfl⟩ := h
    exact held.park_content d
  | drop =>
    cases hand with
    | empty => exact absurd rfl h
    | due held => exact held.answer_content d _
    | deferred held => exact held.answer_content d _
  | editHand edit =>
    obtain ⟨held, rfl⟩ := h
    simp [Call.run, Turn.content, CommandChannel.editHand, Hand.content, Due.batch]
  | editCommitted seq edit =>
    simp only [Call.run, Turn.content, editCommitted_content (unseen edit), List.map_nil,
      Multiset.coe_nil, add_zero]

theorem call_ledger {d : Docket P} {call : Call P} (h : call.Allowed .empty) :
    (call.run d .empty).docket.ledger = d.ledger := by
  cases call with
  | nextDue start frames => exact takeDue_ledger d start frames
  | nextDeferred => exact takeDeferred_ledger d
  | resume seq start moment => exact takeParked_ledger d seq start moment
  | complete seq data => exact complete_ledger d .empty seq data
  | editCommitted seq edit => rfl
  | _ => rfl

theorem scopeCall_follows {index generation : ℕ} {call : Call M}
    (h : ScopedChannel.Enabled s (.scopeCall index generation call)) :
    Follows s (next s (.scopeCall index generation call)) := by
  simp only [next]
  cases hlevel : s.level index generation with
  | none => exact follows_refl (fun _ => rfl) rfl
  | some i =>
    obtain ⟨⟨hlive, _, hquiet, _⟩, hallowed⟩ := h i hlevel
    refine turnOne_follows hquiet (take_own _ _ _) (take_steps (by rw [hlive]; rfl)
      (call_content hallowed) fun hheld => ?_)
    have hempty := content_hand (add_eq_zero.mp hheld).2
    rw [hempty] at hallowed ⊢
    exact call_ledger hallowed

theorem rootCall_follows {call : Call R} (h : ScopedChannel.Enabled s (.rootCall call)) :
    Follows s (next s (.rootCall call)) := by
  obtain ⟨⟨hlive, _, hquiet, _⟩, hallowed⟩ := h
  have hnext : next s (.rootCall call) =
      s.turnAll (call.run s.rootDocket s.rootHand) fun _ scope => (scope, []) := by
    simp [next, State.turnAll]
  rw [hnext]
  apply turnAll_follows hquiet (by rw [hlive]; rfl) (call_content hallowed)
  · exact fun i j _ => rfl
  · intro i
    simpa [afterTurn, life] using Relation.ReflTransGen.refl

theorem isNew_reset (ledger : Ledger) : isNew ledger.reset = true := by
  simp [isNew, Ledger.reset]

theorem unanswered_held (d : Docket P) : (CommandLevel.unanswered d).docket.content Batch.basis +
    (CommandLevel.unanswered d).hand.content Batch.basis = 0 := by
  have hcard := (Docket.card_content Batch.basis (CommandLevel.unanswered d).docket).trans
    (unanswered_empty d)
  rw [Multiset.card_eq_zero.mp hcard]
  rfl

/-- Retiring a closing scope answers all it holds, and then its end. -/
theorem retire_steps {i : Fin c.scopes} (halive : answering s.stage = true)
    (hempty : (s.scopes i).hand = .empty) :
    Steps generations (life s i) (afterTurn (life s i) i ((s.scopes i).retire i)) := by
  by_cases hclosing : (s.scopes i).closing = true
  · have hcontent : (CommandLevel.unanswered (s.scopes i).docket).content Batch.basis =
        heldBy (s.scopes i) := by
      rw [unanswered_content, heldBy, hempty]
      exact (add_zero _).symm
    have hfirst := take_steps halive hcontent fun _ => unanswered_ledger (s.scopes i).docket
    have hheld : heldBy ((s.scopes i).take i (CommandLevel.unanswered (s.scopes i).docket)).1 =
        0 := unanswered_held _
    have hlast := Step.retire (m := generations) (afterTurn (life s i) i
      ((s.scopes i).take i (CommandLevel.unanswered (s.scopes i).docket))) halive hclosing hheld
    have hafter : afterTurn (life s i) i ((s.scopes i).retire i) = { afterTurn (life s i) i
        ((s.scopes i).take i (CommandLevel.unanswered (s.scopes i).docket)) with
          turn := SlotLifecycle.wrap generations (s.scopes i).generation
          closing := false
          clean := true
          out := (afterTurn (life s i) i ((s.scopes i).take i
            (CommandLevel.unanswered (s.scopes i).docket))).out ++
              [⟨(s.scopes i).generation, none⟩] } := by
      simp [afterTurn, ScopeDocket.retire, ScopeDocket.unanswered, hclosing, answerAt, eventOf,
        isNew_reset, ScopeDocket.take, heldBy]
      rfl
    rw [hafter]
    exact hfirst.tail hlast
  · have hsame : (s.scopes i).retire i = (s.scopes i, ([] : List (ScopeReply M c))) := by
      simp only [ScopeDocket.retire, if_neg hclosing]
    rw [hsame]
    simpa [afterTurn, life] using Relation.ReflTransGen.refl

theorem retire_own (i : Fin c.scopes) (scope : ScopeDocket M) : Own i (scope.retire i) := by
  intro j hj
  simp only [ScopeDocket.retire]
  split
  · simp only [ScopeDocket.unanswered, List.filterMap_append, take_own i scope _ j hj]
    exact List.filterMap_eq_nil_iff.mpr fun reply hreply => by
      rw [List.mem_singleton.mp hreply]
      exact eventOf_other (Ne.symm hj)
  · rfl

theorem retire_follows {index generation : ℕ} (h : s.Ready) :
    Follows s (next s (.retire index generation)) := by
  obtain ⟨hlive, _, hempty, hquiet⟩ := h
  simp only [next]
  cases s.level index generation with
  | none => exact follows_refl (fun _ => rfl) rfl
  | some i =>
    exact turnOne_follows hquiet (retire_own i _) (retire_steps (by rw [hlive]; rfl) (hempty.2 i))

/-- A turn that only answers from the docket of each scope with empty hands. -/
theorem dockets_follow (hquiet : s.replies = []) (halive : answering s.stage = true)
    (hempty : s.HandsEmpty) {root : Turn R} {turn : Fin c.scopes → ScopeDocket M → Turn M}
    (hroot : root.content Batch.basis = s.rootDocket.content Batch.basis)
    (hcontent : ∀ i scope, (turn i scope).content Batch.basis = scope.docket.content Batch.basis)
    (hledger : ∀ i scope, (turn i scope).docket.ledger = scope.docket.ledger) :
    Follows s (s.turnAll root fun i scope => scope.take i (turn i scope)) := by
  apply turnAll_follows hquiet halive
  · rw [hroot, rootHeld, hempty.1]
    exact (add_zero _).symm
  · exact fun i => take_own i _ _
  · intro i
    refine take_steps halive ?_ fun _ => hledger i _
    rw [hcontent, heldBy, hempty.2 i]
    exact (add_zero _).symm

theorem finish_follows (ht : Tidy s) (hquiet : s.replies = []) : Follows s s.finish := by
  simp only [State.finish]
  by_cases htask : s.task = .idle
  · rw [htask]
    exact follows_refl (fun _ => rfl) rfl
  obtain ⟨hstage, hempty⟩ := ht.hands htask
  have halive : answering s.stage = true := by
    rcases hstage with hstage | hstage
    · rw [hstage]
      rfl
    · rw [hstage]
      rfl
  cases htask' : s.task with
  | idle => exact absurd htask' htask
  | drain => exact follows_refl (fun _ => rfl) rfl
  | refuseTimed root scope =>
    have hturn : Follows s (s.turnAll (CommandLevel.refuseTimed s.rootDocket root)
        (ScopeDocket.refuseTimed scope)) :=
      dockets_follow hquiet halive hempty (refuseTimed_content s.rootDocket root)
        (fun _ docket => refuseTimed_content docket.docket scope) fun _ _ => rfl
    exact ⟨hturn.scopes, hturn.root⟩
  | retireClosing =>
    have hturn : Follows s (s.turnAll { docket := s.rootDocket, hand := s.rootHand, replies := [] }
        ScopeDocket.retire) := by
      apply turnAll_follows hquiet halive
      · simp [Turn.content, rootHeld]
      · exact fun i => retire_own i _
      · exact fun i => retire_steps halive (hempty.2 i)
    exact ⟨hturn.scopes, hturn.root⟩
  | teardown =>
    have hturn : Follows s (s.turnAll (CommandLevel.unanswered s.rootDocket)
        ScopeDocket.unanswered) :=
      dockets_follow hquiet halive hempty (unanswered_content s.rootDocket)
        (fun _ docket => unanswered_content docket.docket)
        fun _ docket => unanswered_ledger docket.docket
    have hsame (i : Fin c.scopes) : life ({ s.turnAll (CommandLevel.unanswered s.rootDocket)
        ScopeDocket.unanswered with task := .idle, stage := .unanswered } : State R M c) i =
          life (s.turnAll (CommandLevel.unanswered s.rootDocket) ScopeDocket.unanswered) i := by
      simp only [life, State.turnAll, halive]
      rfl
    have hsameRoot : rootLife ({ s.turnAll (CommandLevel.unanswered s.rootDocket)
        ScopeDocket.unanswered with task := .idle, stage := .unanswered } : State R M c) =
          rootLife (s.turnAll (CommandLevel.unanswered s.rootDocket) ScopeDocket.unanswered) := by
      simp only [rootLife, State.turnAll, halive]
      rfl
    dsimp only
    refine ⟨fun i => ?_, ?_⟩
    · rw [hsame]
      exact hturn.scopes i
    · rw [hsameRoot]
      exact hturn.root

theorem pop_follows (ht : Tidy s) (h : ScopedChannel.Enabled s .pop) :
    Follows s (next s .pop) := by
  obtain ⟨htask, hquiet⟩ := h
  simp only [next]
  cases hpop : s.commands.tryPop with
  | none => exact finish_follows ht hquiet
  | some r =>
    obtain ⟨item, commands⟩ := r
    refine route_follows ?_ hquiet hpop
    intro hgone
    rcases (ht.hands htask).1 with hstage | hstage
    · rw [hgone] at hstage
      cases hstage
    · rw [hgone] at hstage
      cases hstage

theorem release_follows (ht : Tidy s) (h : s.stage = .rootReleased) :
    Follows s (next s .releaseScopes) := by
  obtain ⟨hroot, hscopes⟩ := ht.torn (by rw [h]; decide) (by rw [h]; decide)
  refine ⟨fun i => ?_, ?_⟩
  · exact .single (Step.die (life s i) (hscopes i))
  · exact .single (Step.die (rootLife s) hroot)

/-- What is left in the command ring has room in the ring of its level. -/
theorem orphan_room (h : Lives s) : s.rootAnswers.items.length +
      (s.commands.items.filterMap rootItem).length ≤ c.rootCapacity ∧
    s.scopeAnswers.items.length + (∑ i, (s.commands.items.filterMap (itemAt i)).length) ≤
      c.scopeTotal := by
  obtain ⟨hroot, hscopes⟩ := lives_load h
  constructor
  · refine le_trans ?_ hroot
    simp only [Life.line, rootLife, List.length_append, List.length_map]
    omega
  · refine le_trans ?_ hscopes
    rw [answers_split, ← Finset.sum_add_distrib]
    apply Finset.sum_le_sum
    intro i _
    simp only [Life.line, life, List.length_append]
    omega

theorem orphan_fits {item : Item R M c} {rest : List (Item R M c)} (h : Lives s)
    (hitems : s.commands.items = item :: rest) :
    (∀ receipt, item.orphan = .root receipt →
        ∃ answers, s.rootAnswers.tryPush receipt = some answers) ∧
      ∀ reply, item.orphan = .scope reply →
        ∃ answers, s.scopeAnswers.tryPush reply = some answers := by
  obtain ⟨hroot, hscopes⟩ := orphan_room h
  have hsplit := items_split s.commands.items
  rw [hitems] at hroot hscopes hsplit
  rw [List.length_cons] at hsplit
  constructor
  · intro receipt hreply
    apply Ring.tryPush_isSome
    cases item with
    | root sent =>
      rw [filterMap_length_cons] at hroot
      simp only [rootItem, Option.toList_some, List.length_singleton] at hroot
      omega
    | scope id sent => cases hreply
    | close id => cases hreply
  · intro reply hreply
    apply Ring.tryPush_isSome
    have hrest : ((item :: rest).filterMap rootItem).length ≤ rest.length := by
      cases item with
      | root sent => cases hreply
      | scope id sent =>
        rw [List.filterMap_cons_none rfl]
        exact List.length_filterMap_le _ _
      | close id =>
        rw [List.filterMap_cons_none rfl]
        exact List.length_filterMap_le _ _
    omega

/-- A scope's orphan goes from the command ring to the scopes' answers. -/
theorem scopeOrphan_follows (hdead : answering s.stage = false) (hquiet : s.replies = [])
    {item : Item R M c} {reply : ScopeReply M c} {id : ScopeId c.scopes}
    {payload : Option (Payload M)} (hitem : ∀ j, itemAt j item = eventOf j id payload)
    (hreply : ∀ j, answerAt j reply = eventOf j id payload) (hnoroot : rootItem item = none)
    {commands : Ring (Item R M c) c.commandCapacity} (hitems : s.commands.items = item :: commands.items)
    {answers : Ring (ScopeReply M c) c.scopeTotal}
    (hanswers : answers.items = s.scopeAnswers.items ++ [reply]) (recovered : List (Item R M c)) :
    Follows s { s with commands := commands, scopeAnswers := answers, recovered := recovered } := by
  refine follows_scope id.index ?_ (fun j hj => ?_) ?_
  · have hown : eventOf id.index id payload = some ⟨id.generation, payload⟩ := if_pos rfl
    refine steps_of_eq ?_ (Step.orphan (life s id.index) ⟨id.generation, payload⟩
      (commands.items.filterMap (itemAt id.index)) hdead (by simp [life, hitems, hitem, hown]))
    simp [life, hanswers, hquiet, hreply, hown]
  · have hother : eventOf j id payload = none := if_neg (Ne.symm hj)
    simp [life, hitems, hanswers, hitem, hreply, hother]
  · simp [rootLife, hitems, hnoroot]

/-- An orphan goes from the command ring to the answers of its level. -/
theorem recoverOne_follows (h : Lives s) (hgone : s.stage = .gone) (hquiet : s.replies = []) :
    Follows s s.recoverOne := by
  simp only [State.recoverOne]
  cases hpop : s.commands.tryPop with
  | none => exact follows_refl (fun _ => rfl) rfl
  | some r =>
    obtain ⟨item, commands⟩ := r
    have hitems := Ring.tryPop_eq_some hpop
    have hdead : answering s.stage = false := by rw [hgone]; rfl
    obtain ⟨hrootFits, hscopeFits⟩ := orphan_fits h hitems
    cases item with
    | root sent =>
      obtain ⟨answers, hpush⟩ := hrootFits _ rfl
      have hanswers := Ring.tryPush_eq_some hpush
      simp only [Item.orphan, State.pushReply, hpush]
      refine ⟨fun i => ?_, ?_⟩
      · simpa [life, hitems, List.filterMap_cons, itemAt] using Relation.ReflTransGen.refl
      · refine steps_of_eq ?_ (Step.orphan (rootLife s) (rootEvent (sent.tag Batch.basis))
          (commands.items.filterMap rootItem) hdead (by simp [rootLife, hitems, rootItem]))
        simp [rootLife, hanswers, hquiet, Sent.unanswered]
    | scope id sent =>
      obtain ⟨answers, hpush⟩ := hscopeFits _ rfl
      simp only [Item.orphan, State.pushReply, hpush]
      exact scopeOrphan_follows hdead hquiet (fun _ => rfl) (fun _ => rfl) rfl hitems
        (Ring.tryPush_eq_some hpush) _
    | close id =>
      obtain ⟨answers, hpush⟩ := hscopeFits _ rfl
      simp only [Item.orphan, State.pushReply, hpush]
      exact scopeOrphan_follows hdead hquiet (fun _ => rfl) (fun _ => rfl) rfl hitems
        (Ring.tryPush_eq_some hpush) _

end ScopedSimulation

import Kithara.ScopedSimulation

/-! What holds in every state of a scoped channel whose slots are reused fewer times than their
generations count. -/
namespace ScopedSteps

open BoundedRing CommandProtocol CommandDocket CommandLevel TransitionSystem
open ScopedChannel ScopedProjection ScopedSimulation

variable {R M P : Protocol} {c : Config} {s s' : State R M c}

/-- A step of the owner that neither publishes nor recovers. -/
theorem owner_tidy (h : Tidy s)
    (hadmitted : ∀ i when batch, s'.phase = .scopeAdmitted i when batch →
      (s'.slots i).state = .opened)
    (hlost : s'.lost ≠ [] → s'.gateClosed = true ∧ s'.phase ≠ .publishing)
    (hexecutor : s'.stage = s.stage ∧ s'.task = s.task ∧ s'.rootDocket = s.rootDocket ∧
      s'.rootHand = s.rootHand ∧ s'.scopes = s.scopes ∧ s'.replies = s.replies)
    (hpasses : s'.passes = s.passes ∧ s'.drained = s.drained ∧ s'.recovered = s.recovered ∧
      s'.commands = s.commands) : Tidy s' := by
  obtain ⟨hstage, htask, hdocket, hhand, hscopes, hreplies⟩ := hexecutor
  obtain ⟨hp, hd, hr, hc⟩ := hpasses
  constructor
  · exact hadmitted
  · exact hlost
  · rw [htask, hstage, State.HandsEmpty, hhand, hscopes]
    exact h.hands
  · rw [hstage, htask]
    exact h.closed
  · rw [hstage, rootHeld, hdocket, hhand, hscopes]
    exact h.torn
  · rw [hstage, hreplies]
    exact h.quiet
  · rw [hp, hd, hr, hc]
    exact h.flow
  · rw [hstage, hr]
    exact h.recovered
  · rw [htask, hp, hd]
    exact h.whole

/-- A turn of the executor, which drains nothing. -/
theorem executor_tidy (h : Tidy s)
    (howner : s'.phase = s.phase ∧ s'.slots = s.slots ∧ s'.lost = s.lost ∧
      s'.gateClosed = s.gateClosed)
    (hhands : s'.task ≠ .idle → (s'.stage = .live ∨ s'.stage = .closed) ∧ s'.HandsEmpty)
    (hclosed : s'.stage = .closed → s'.task = .teardown)
    (htorn : s'.stage ≠ .live → s'.stage ≠ .closed →
      rootHeld s' = 0 ∧ ∀ i, heldBy (s'.scopes i) = 0)
    (hquiet : s'.stage = .commandsReleased ∨ s'.stage = .rootReleased ∨ s'.stage = .gone →
      s'.replies = [])
    (hstage : s'.stage ≠ .gone → s.stage ≠ .gone) (htask : s'.task = .idle → s.task = .idle)
    (hpasses : s'.passes = s.passes ∧ s'.drained = s.drained ∧ s'.recovered = s.recovered ∧
      s'.commands = s.commands) : Tidy s' := by
  obtain ⟨hphase, hslots, hlost, hgate⟩ := howner
  obtain ⟨hp, hd, hr, hc⟩ := hpasses
  constructor
  · rw [hphase, hslots]
    exact h.admitted
  · rw [hphase, hlost, hgate]
    exact h.lost
  · exact hhands
  · exact hclosed
  · exact htorn
  · exact hquiet
  · rw [hp, hd, hr, hc]
    exact h.flow
  · rw [hr]
    exact fun hnot => h.recovered (hstage hnot)
  · rw [hp, hd]
    exact fun hidle => h.whole (htask hidle)

theorem open_tidy (h : Tidy s) (hidle : s.phase = .idle) (targets : ℕ) :
    Tidy (next s (.open targets)) := by
  simp only [next]
  cases s.tryOpen targets with
  | error e => exact h
  | ok i =>
    refine owner_tidy h ?_ h.lost ⟨rfl, rfl, rfl, rfl, rfl, rfl⟩ ⟨rfl, rfl, rfl, rfl⟩
    intro j when batch hphase
    rw [hidle] at hphase
    cases hphase

theorem idle_tidy {slots : Fin c.scopes → Slot M} {staged : List (Item R M c)}
    {root : CommandChannel.Book R} {nextSeq : ℕ} (h : Tidy s) : Tidy { s with
      slots := slots, staged := staged, root := root, nextSeq := nextSeq, phase := .idle } := by
  refine owner_tidy h ?_ ?_ ⟨rfl, rfl, rfl, rfl, rfl, rfl⟩ ⟨rfl, rfl, rfl, rfl⟩
  · intro i when batch hphase
    cases hphase
  · exact fun hlost => ⟨(h.lost hlost).1, by rintro ⟨⟩⟩

theorem enterRoot_tidy (h : Tidy s) (when : When R.Clock) (batch : Batch R) :
    Tidy (next s (.enterRoot when batch)) := by
  simp only [next]
  split
  · exact h
  · refine owner_tidy h ?_ ?_ ⟨rfl, rfl, rfl, rfl, rfl, rfl⟩ ⟨rfl, rfl, rfl, rfl⟩
    · intro i when' batch' hphase
      cases hphase
    · exact fun hlost => ⟨(h.lost hlost).1, by rintro ⟨⟩⟩

theorem enterScope_tidy (h : Tidy s) (index generation : ℕ) (when : When M.Clock)
    (batch : Batch M) : Tidy (next s (.enterScope index generation when batch)) := by
  simp only [next]
  cases s.scope index generation with
  | none => exact h
  | some i =>
    dsimp only
    split
    · exact h
    · rename_i hopen
      simp only [not_or, not_not] at hopen
      refine owner_tidy h ?_ ?_ ⟨rfl, rfl, rfl, rfl, rfl, rfl⟩ ⟨rfl, rfl, rfl, rfl⟩
      · intro j when' batch' hphase
        cases hphase
        exact hopen.1
      · exact fun hlost => ⟨(h.lost hlost).1, by rintro ⟨⟩⟩

theorem push_tidy (h : Tidy s) : Tidy (next s .push) := by
  simp only [next]
  cases s.phase with
  | rootAdmitted when batch =>
    dsimp only
    cases s.push s.root when batch with
    | error e => exact idle_tidy h
    | ok r => exact idle_tidy h
  | scopeAdmitted i when batch =>
    dsimp only
    cases s.push (s.slots i).book when batch with
    | error e => exact idle_tidy h
    | ok r => exact idle_tidy h
  | _ => exact h

theorem close_tidy (h : Tidy s) (hidle : s.phase = .idle) (index generation : ℕ) :
    Tidy (next s (.close index generation)) := by
  simp only [next]
  cases State.slot? (c := c) index with
  | none => exact h
  | some i =>
    dsimp only
    split
    · exact h
    · have hclosed : Tidy { s with
          slots := Function.update s.slots i { s.slots i with state := .closing }
          staged := s.staged ++ [.close (s.slotId i)]
          phase := .idle } := idle_tidy h
      rw [← hidle] at hclosed
      exact hclosed

theorem discard_tidy (h : Tidy s) (hgate : s.gateClosed = true) : Tidy s.discard := by
  refine owner_tidy h ?_ ?_ ⟨rfl, rfl, rfl, rfl, rfl, rfl⟩ ⟨rfl, rfl, rfl, rfl⟩
  · intro i when batch hphase
    cases hphase
  · exact fun _ => ⟨hgate, by rintro ⟨⟩⟩

theorem publish_tidy (h : Tidy s) : Tidy (next s .publish) := by
  simp only [next]
  split
  · rename_i hgate
    exact discard_tidy h hgate
  · split
    · exact h
    · refine owner_tidy h ?_ ?_ ⟨rfl, rfl, rfl, rfl, rfl, rfl⟩ ⟨rfl, rfl, rfl, rfl⟩
      · intro i when batch hphase
        cases hphase
      · exact fun hlost => ⟨(h.lost hlost).1, by rintro ⟨⟩⟩

theorem enterGate_tidy (h : Tidy s) : Tidy (next s .enterGate) := by
  simp only [next]
  split
  · rename_i hgate
    exact discard_tidy h hgate
  · rename_i hgate
    refine owner_tidy h ?_ ?_ ⟨rfl, rfl, rfl, rfl, rfl, rfl⟩ ⟨rfl, rfl, rfl, rfl⟩
    · intro i when batch hphase
      cases hphase
    · exact fun hlost => absurd (h.lost hlost).1 hgate

theorem pushPass_tidy (h : Sound s) : Tidy s.pushPass := by
  obtain ⟨htake, hdrop⟩ := pass_fits h.lives
  have ht := h.tidy
  refine ⟨by rintro _ _ _ ⟨⟩, ?_, ht.hands, ht.closed, ht.torn, ht.quiet, ?_, ht.recovered, ?_⟩
  · intro hlost
    rw [State.pushPass, hdrop, List.append_nil] at hlost
    exact ⟨(ht.lost hlost).1, by rintro ⟨⟩⟩
  · simp only [State.pushPass, List.flatten_append, ht.flow, List.flatten_singleton,
      List.append_assoc]
  · intro hidle
    obtain ⟨k, hk⟩ := ht.whole hidle
    refine ⟨min k s.passes.length, ?_⟩
    simp only [State.pushPass]
    rw [List.take_append_of_le_length (Nat.min_le_right _ _), hk, ← List.take_eq_take_min]

theorem pushReply_eq (s : State R M c) (reply : Reply R M c) : s.pushReply reply =
    { s with
      rootAnswers := (s.pushReply reply).rootAnswers
      scopeAnswers := (s.pushReply reply).scopeAnswers } := by
  cases reply with
  | root receipt =>
    simp only [State.pushReply]
    split <;> rfl
  | scope reply =>
    simp only [State.pushReply]
    split <;> rfl

theorem answers_tidy (h : Tidy s) (rootAnswers : Ring (Receipt R) c.rootCapacity)
    (scopeAnswers : Ring (ScopeReply M c) c.scopeTotal) :
    Tidy { s with rootAnswers := rootAnswers, scopeAnswers := scopeAnswers } :=
  owner_tidy h h.admitted h.lost ⟨rfl, rfl, rfl, rfl, rfl, rfl⟩ ⟨rfl, rfl, rfl, rfl⟩

theorem recoverOne_tidy (h : Tidy s) (hgone : s.stage = .gone) : Tidy s.recoverOne := by
  simp only [State.recoverOne]
  cases hpop : s.commands.tryPop with
  | none => exact h
  | some r =>
    obtain ⟨item, commands⟩ := r
    dsimp only
    rw [pushReply_eq]
    apply answers_tidy
    refine ⟨h.admitted, h.lost, h.hands, h.closed, h.torn, h.quiet, ?_,
      fun hnot => absurd hgone hnot, h.whole⟩
    rw [h.flow, Ring.tryPop_eq_some hpop]
    simp only [List.append_assoc, List.cons_append, List.nil_append]

theorem recoverOne_stage (s : State R M c) : s.recoverOne.stage = s.stage := by
  simp only [State.recoverOne]
  split
  · rfl
  · rw [pushReply_eq]

theorem recoverOne_phase (s : State R M c) : s.recoverOne.phase = s.phase := by
  simp only [State.recoverOne]
  split
  · rfl
  · rw [pushReply_eq]

theorem recoverOne_sound (h : Sound s) (hgone : s.stage = .gone) :
    Sound s.recoverOne ∧ s.recoverOne.stage = .gone := by
  have hquiet := h.tidy.quiet (Or.inr (Or.inr hgone))
  exact ⟨⟨recoverOne_tidy h.tidy hgone, (recoverOne_follows h.lives hgone hquiet).lives h.lives⟩,
    (recoverOne_stage s).trans hgone⟩

theorem recover_sound (h : Sound s) (hgone : s.stage = .gone) (n : ℕ) :
    Sound (State.recoverOne^[n] s) ∧ (State.recoverOne^[n] s).stage = .gone ∧
      (State.recoverOne^[n] s).phase = s.phase := by
  induction n with
  | zero => exact ⟨h, hgone, rfl⟩
  | succ n ih =>
    rw [Function.iterate_succ_apply']
    obtain ⟨hsound, hstage⟩ := recoverOne_sound ih.1 ih.2.1
    exact ⟨hsound, hstage, (recoverOne_phase _).trans ih.2.2⟩

theorem recoverOrphans_sound (h : Sound s) : Sound s.recoverOrphans ∧
    s.recoverOrphans.phase = s.phase := by
  simp only [State.recoverOrphans]
  split
  · rename_i hgone
    obtain ⟨hsound, _, hphase⟩ := recover_sound h hgone s.commands.items.length
    exact ⟨hsound, hphase⟩
  · exact ⟨h, rfl⟩

theorem read_tidy (h : Sound s) (scopes : Bool) : Tidy (next s (.read scopes)) := by
  obtain ⟨hsound, _⟩ := recoverOrphans_sound h
  refine owner_tidy hsound.tidy ?_ ?_ ⟨rfl, rfl, rfl, rfl, rfl, rfl⟩ ⟨rfl, rfl, rfl, rfl⟩
  · intro i when batch hphase
    cases hphase
  · exact fun hlost => ⟨(hsound.tidy.lost hlost).1, by rintro ⟨⟩⟩

theorem popRoot_tidy (h : Tidy s) : Tidy (next s .popRoot) := by
  simp only [next]
  cases s.phase with
  | reading scopes =>
    dsimp only
    cases s.rootAnswers.tryPop with
    | some r =>
      refine owner_tidy h ?_ ?_ ⟨rfl, rfl, rfl, rfl, rfl, rfl⟩ ⟨rfl, rfl, rfl, rfl⟩
      · intro i when batch hphase
        cases hphase
      · exact fun hlost => ⟨(h.lost hlost).1, by rintro ⟨⟩⟩
    | none =>
      refine owner_tidy h ?_ ?_ ⟨rfl, rfl, rfl, rfl, rfl, rfl⟩ ⟨rfl, rfl, rfl, rfl⟩
      · intro i when batch hphase
        cases scopes <;> cases hphase
      · exact fun hlost => ⟨(h.lost hlost).1, by cases scopes <;> rintro ⟨⟩⟩
  | _ => exact h

theorem popScope_tidy (h : Tidy s) : Tidy (next s .popScope) := by
  simp only [next]
  cases s.scopeAnswers.tryPop with
  | none =>
    have hidle : Tidy { s with phase := .idle } := idle_tidy h
    exact hidle
  | some r =>
    obtain ⟨reply, answers⟩ := r
    cases reply with
    | receipt id receipt =>
      refine owner_tidy h ?_ ?_ ⟨rfl, rfl, rfl, rfl, rfl, rfl⟩ ⟨rfl, rfl, rfl, rfl⟩
      · intro i when batch hphase
        cases hphase
      · exact fun hlost => ⟨(h.lost hlost).1, by rintro ⟨⟩⟩
    | closed id =>
      refine owner_tidy h ?_ ?_ ⟨rfl, rfl, rfl, rfl, rfl, rfl⟩ ⟨rfl, rfl, rfl, rfl⟩
      · intro i when batch hphase
        cases hphase
      · exact fun hlost => ⟨(h.lost hlost).1, by rintro ⟨⟩⟩

/-- A turn of a live executor between two drains. -/
theorem turn_tidy (h : Tidy s) (hlive : s.stage = .live) (hidle : s.task = .idle)
    (root : Docket R) (rootHand : Hand R) (scopes : Fin c.scopes → ScopeDocket M)
    (replies : List (Reply R M c)) : Tidy { s with
      rootDocket := root, rootHand := rootHand, scopes := scopes, replies := replies } := by
  refine executor_tidy h ⟨rfl, rfl, rfl, rfl⟩ ?_ h.closed ?_ ?_ id id ⟨rfl, rfl, rfl, rfl⟩
  · exact fun hbusy => absurd hidle hbusy
  · exact fun hnot => absurd hlive hnot
  · intro hstage
    simp only [hlive] at hstage
    rcases hstage with hstage | hstage | hstage
    · cases hstage
    · cases hstage
    · cases hstage

theorem begin_tidy (h : Tidy s) (hready : s.Ready) {task : Task R M} (hbusy : task ≠ .idle) :
    Tidy (next s (.begin task)) := by
  obtain ⟨hlive, hidle, hempty, _⟩ := hready
  refine executor_tidy h ⟨rfl, rfl, rfl, rfl⟩ ?_ ?_ h.torn h.quiet id ?_ ⟨rfl, rfl, rfl, rfl⟩
  · exact fun _ => ⟨Or.inl hlive, hempty⟩
  · intro hclosed
    simp only [next, hlive] at hclosed
    cases hclosed
  · exact fun htask => absurd htask hbusy

/-- Routing an item leaves all but its level and the replies. -/
theorem route_tidy (h : Tidy s) (hbusy : s.task ≠ .idle) {item : Item R M c}
    {commands : Ring (Item R M c) c.commandCapacity}
    (hpop : s.commands.tryPop = some (item, commands)) :
    Tidy ({ s with commands := commands, drained := s.drained ++ [item] }.route item) := by
  obtain ⟨hstage, hrootHand, hhands⟩ := h.hands hbusy
  have hnot : s.stage ≠ .gone := by
    rcases hstage with hstage | hstage
    · rw [hstage]
      decide
    · rw [hstage]
      decide
  have hflow : s.passes.flatten = s.drained ++ [item] ++ s.recovered ++ commands.items := by
    rw [h.flow, Ring.tryPop_eq_some hpop, h.recovered hnot]
    simp only [List.append_nil, List.append_assoc, List.cons_append, List.nil_append]
  have hdrained (rootDocket : Docket R) (scopes : Fin c.scopes → ScopeDocket M)
      (replies : List (Reply R M c)) (hscopes : ∀ i, (scopes i).hand = .empty) :
      Tidy { s with
        commands := commands
        drained := s.drained ++ [item]
        rootDocket := rootDocket
        scopes := scopes
        replies := replies } := by
    refine ⟨h.admitted, h.lost, fun _ => ⟨hstage, hrootHand, hscopes⟩, h.closed, ?_, ?_, hflow,
      h.recovered, fun hidle => absurd hidle hbusy⟩
    · intro hlive hclosed
      rcases hstage with hstage | hstage
      · exact absurd hstage hlive
      · exact absurd hstage hclosed
    · intro hquiet
      rcases hstage with hstage | hstage
      · rw [hstage] at hquiet
        simp at hquiet
      · rw [hstage] at hquiet
        simp at hquiet
  have hupdate (i : Fin c.scopes) (scope : ScopeDocket M) (hhand : scope.hand = .empty)
      (j : Fin c.scopes) : (Function.update s.scopes i scope j).hand = .empty := by
    by_cases hj : j = i
    · rw [hj, Function.update_self]
      exact hhand
    · rw [Function.update_of_ne hj]
      exact hhands j
  cases item with
  | root sent => exact hdrained _ _ _ hhands
  | scope id sent =>
    simp only [State.route]
    split
    · exact hdrained _ _ _ (hupdate _ _ (hhands id.index))
    · exact hdrained _ _ _ hhands
  | close id =>
    simp only [State.route]
    split
    · exact hdrained _ _ _ (hupdate _ _ (hhands id.index))
    · exact hdrained _ _ _ hhands

/-- A drain that emptied the ring took whole passes. -/
theorem drained_whole (h : Tidy s) (hbusy : s.task ≠ .idle) (hempty : s.commands.items = []) :
    s.drained = (s.passes.take s.passes.length).flatten := by
  have hnot : s.stage ≠ .gone := by
    rcases (h.hands hbusy).1 with hstage | hstage
    · rw [hstage]
      decide
    · rw [hstage]
      decide
  rw [List.take_length, h.flow, h.recovered hnot, hempty, List.append_nil, List.append_nil]

/-- The rings are still held while the inbox answers its leftovers. -/
theorem unanswered_early : ¬ (Stage.unanswered = .commandsReleased ∨
    Stage.unanswered = .rootReleased ∨ Stage.unanswered = .gone) := by
  decide

theorem closed_early : ¬ (Stage.closed = .commandsReleased ∨ Stage.closed = .rootReleased ∨
    Stage.closed = .gone) := by
  decide

theorem finish_tidy (h : Tidy s) (hbusy : s.task ≠ .idle) (hempty : s.commands.items = []) :
    Tidy s.finish := by
  obtain ⟨hstage, hhands⟩ := h.hands hbusy
  have hwhole := drained_whole h hbusy hempty
  have hearly (rootDocket : Docket R) (rootHand : Hand R) (scopes : Fin c.scopes → ScopeDocket M)
      (replies : List (Reply R M c)) (hnot : s.task ≠ .teardown) : Tidy { s with
        task := .idle
        rootDocket := rootDocket
        rootHand := rootHand
        scopes := scopes
        replies := replies } := by
    refine ⟨h.admitted, h.lost, fun hnot => absurd rfl hnot,
      fun hclosed => absurd (h.closed hclosed) hnot, ?_, ?_, h.flow, h.recovered,
      fun _ => ⟨_, hwhole⟩⟩
    · intro hlive hclosed
      rcases hstage with hstage | hstage
      · exact absurd hstage hlive
      · exact absurd hstage hclosed
    · intro hlate
      rcases hstage with hstage | hstage
      · rw [hstage] at hlate
        simp at hlate
      · rw [hstage] at hlate
        simp at hlate
  simp only [State.finish]
  cases htask : s.task with
  | idle => exact absurd htask hbusy
  | drain =>
    apply hearly s.rootDocket s.rootHand s.scopes s.replies
    rw [htask]
    rintro ⟨⟩
  | refuseTimed root scope =>
    apply hearly
    rw [htask]
    rintro ⟨⟩
  | retireClosing =>
    apply hearly
    rw [htask]
    rintro ⟨⟩
  | teardown =>
    have hnot : s.stage ≠ .gone := by
      rcases hstage with hstage | hstage
      · rw [hstage]
        decide
      · rw [hstage]
        decide
    refine ⟨h.admitted, h.lost, fun hnot => absurd rfl hnot, by rintro ⟨⟩, ?_,
      fun hlate => absurd hlate unanswered_early, h.flow,
      fun _ => h.recovered hnot, fun _ => ⟨_, hwhole⟩⟩
    exact fun _ _ => ⟨unanswered_held _, fun i => unanswered_held _⟩

theorem pop_tidy (h : Tidy s) (he : ScopedChannel.Enabled s .pop) : Tidy (next s .pop) := by
  obtain ⟨hbusy, _⟩ := he
  simp only [next]
  cases hpop : s.commands.tryPop with
  | none => exact finish_tidy h hbusy (Ring.tryPop_eq_none hpop)
  | some r => exact route_tidy h hbusy hpop

theorem reply_tidy (h : Tidy s) : Tidy (next s .reply) := by
  simp only [next]
  cases hreplies : s.replies with
  | nil => exact h
  | cons reply rest =>
    dsimp only
    rw [pushReply_eq]
    apply answers_tidy
    refine executor_tidy h ⟨rfl, rfl, rfl, rfl⟩ h.hands h.closed h.torn ?_ id id ⟨rfl, rfl, rfl, rfl⟩
    intro hlate
    have hquiet := h.quiet hlate
    rw [hreplies] at hquiet
    cases hquiet

theorem dropInbox_tidy (h : Tidy s) (hready : s.Ready) : Tidy (next s .dropInbox) := by
  obtain ⟨hlive, hidle, hempty, _⟩ := hready
  have hnot : s.stage ≠ .gone := by
    rw [hlive]
    decide
  refine ⟨h.admitted, fun hlost => ⟨rfl, (h.lost hlost).2⟩, fun _ => ⟨Or.inr rfl, hempty⟩,
    fun _ => rfl, ?_, fun hlate => absurd hlate closed_early, h.flow, fun _ => h.recovered hnot,
    by rintro ⟨⟩⟩
  exact fun _ hclosed => absurd rfl hclosed

/-- The rings are released one after the other, once nothing is held or on its way. -/
theorem released_tidy (h : Tidy s) (hearly : s.stage ≠ .live ∧ s.stage ≠ .closed ∧ s.stage ≠ .gone)
    (hquiet : s.replies = []) {stage : Stage} (hlater : stage ≠ .closed) :
    Tidy { s with stage := stage } := by
  obtain ⟨hlive, hclosed, hgone⟩ := hearly
  refine ⟨h.admitted, h.lost, ?_, fun hnot => absurd hnot hlater,
    fun _ _ => h.torn hlive hclosed, fun _ => hquiet, h.flow, fun _ => h.recovered hgone, h.whole⟩
  intro hbusy
  rcases (h.hands hbusy).1 with hstage | hstage
  · exact absurd hstage hlive
  · exact absurd hstage hclosed

theorem next_tidy (h : Sound s) {a : Action R M} (he : ScopedChannel.Enabled s a) :
    Tidy (next s a) := by
  have ht := h.tidy
  cases a with
  | «open» targets => exact open_tidy ht he targets
  | enterRoot when batch => exact enterRoot_tidy ht when batch
  | enterScope index generation when batch => exact enterScope_tidy ht index generation when batch
  | push => exact push_tidy ht
  | close index generation => exact close_tidy ht he index generation
  | publish => exact publish_tidy ht
  | enterGate => exact enterGate_tidy ht
  | pushPass => exact pushPass_tidy h
  | read scopes => exact read_tidy h scopes
  | popRoot => exact popRoot_tidy ht
  | popScope => exact popScope_tidy ht
  | begin task => exact begin_tidy ht he.1 he.2.1
  | pop => exact pop_tidy ht he
  | rootCall call => exact turn_tidy ht he.1.1 he.1.2.1 _ _ _ _
  | scopeCall index generation call =>
    simp only [next]
    cases hlevel : s.level index generation with
    | none => exact ht
    | some i => exact turn_tidy ht (he i hlevel).1.1 (he i hlevel).1.2.1 _ _ _ _
  | retire index generation =>
    simp only [next]
    cases s.level index generation with
    | none => exact ht
    | some i => exact turn_tidy ht he.1 he.2.1 _ _ _ _
  | reply => exact reply_tidy ht
  | dropInbox => exact dropInbox_tidy ht he
  | releaseCommands =>
    refine released_tidy ht ?_ he.2 (by rintro ⟨⟩)
    rw [he.1]
    decide
  | releaseRoot =>
    have hstage : s.stage = .commandsReleased := he
    refine released_tidy ht ?_ (ht.quiet (Or.inl hstage)) (by rintro ⟨⟩)
    rw [hstage]
    decide
  | releaseScopes =>
    have hstage : s.stage = .rootReleased := he
    refine released_tidy ht ?_ (ht.quiet (Or.inr (Or.inl hstage))) (by rintro ⟨⟩)
    rw [hstage]
    decide

theorem read_follows (h : Sound s) (scopes : Bool) : Lives (next s (.read scopes)) := by
  obtain ⟨hsound, _⟩ := recoverOrphans_sound h
  have hsame : Follows s.recoverOrphans { s.recoverOrphans with phase := .reading scopes } :=
    follows_refl (fun _ => rfl) rfl
  exact hsame.lives hsound.lives

theorem discardable_lives (h : Lives s) : Lives s.discard := (discard_follows s).lives h

theorem same_lives (h : Lives s) (hlife : ∀ i, life s' i = life s i)
    (hroot : rootLife s' = rootLife s) : Lives s' := (follows_refl hlife hroot).lives h

theorem next_lives (h : Sound s) {a : Action R M} (he : ScopedChannel.Enabled s a)
    (hf : FewReuses s a) : Lives (next s a) := by
  have hl := h.lives
  have ht := h.tidy
  cases a with
  | «open» targets => exact (open_follows targets hf).lives hl
  | enterRoot when batch =>
    simp only [next]
    split
    · exact hl
    · exact same_lives hl (fun _ => rfl) rfl
  | enterScope index generation when batch =>
    simp only [next]
    cases s.scope index generation with
    | none => exact hl
    | some i =>
      dsimp only
      split
      · exact hl
      · exact same_lives hl (fun _ => rfl) rfl
  | push => exact (push_follows ht).lives hl
  | close index generation => exact (close_follows index generation).lives hl
  | publish =>
    simp only [next]
    split
    · exact discardable_lives hl
    · split
      · exact hl
      · exact same_lives hl (fun _ => rfl) rfl
  | enterGate =>
    simp only [next]
    split
    · exact discardable_lives hl
    · exact same_lives hl (fun _ => rfl) rfl
  | pushPass => exact (pushPass_follows h he).lives hl
  | read scopes => exact read_follows h scopes
  | popRoot => exact popRoot_follows.lives hl
  | popScope => exact popScope_follows.lives hl
  | begin task => exact same_lives hl (fun _ => rfl) rfl
  | pop => exact (pop_follows ht he).lives hl
  | rootCall call => exact (rootCall_follows he).lives hl
  | scopeCall index generation call => exact (scopeCall_follows he).lives hl
  | retire index generation => exact (retire_follows he).lives hl
  | reply => exact (reply_follows hl).lives hl
  | dropInbox =>
    have hstage : s.stage = .live := he.1
    refine same_lives hl (fun i => ?_) ?_
    · simp only [next, life, hstage]
      rfl
    · simp only [next, rootLife, hstage]
      rfl
  | releaseCommands =>
    have hstage : s.stage = .unanswered := he.1
    refine same_lives hl (fun i => ?_) ?_
    · simp only [next, life, hstage]
      rfl
    · simp only [next, rootLife, hstage]
      rfl
  | releaseRoot =>
    have hstage : s.stage = .commandsReleased := he
    refine same_lives hl (fun i => ?_) ?_
    · simp only [next, life, hstage]
      rfl
    · simp only [next, rootLife, hstage]
      rfl
  | releaseScopes => exact (release_follows ht he).lives hl

theorem sound_step (a : Action R M) (h : Sound s) (he : ScopedChannel.Enabled s a)
    (hf : FewReuses s a) : Sound (next s a) := ⟨next_tidy h he, next_lives h he hf⟩

theorem start_life (i : Fin c.scopes) :
    life (start : State R M c) i = SlotLifecycle.Life.new c.scopeCapacity := by
  have hclean : isNew (Ledger.new c.scopeTargets) = true := by simp [isNew, Ledger.new]
  simp only [life, start, Docket.new, hclean]
  rfl

theorem start_rootLife : rootLife (start : State R M c) =
    { SlotLifecycle.Life.new c.rootCapacity with phase := .opened } := rfl

theorem start_sound : Sound (start : State R M c) := by
  constructor
  · constructor <;> simp [start, Ring.empty]
  · constructor
    · intro i
      rw [start_life]
      exact SlotLifecycle.new_invariant generations c.scopeCapacity
    · rw [start_rootLife]
      have hnew := SlotLifecycle.new_invariant (α := Payload R) generations c.rootCapacity
      exact SlotLifecycle.step_invariant hnew (.opens _ rfl (Nat.two_pow_pos 32))

/-- What holds after every run. -/
theorem run_sound {as : List (Action R M)}
    (hv : (machine : Machine (State R M c) (Action R M)).ValidTrace start as)
    (hf : (machine : Machine (State R M c) (Action R M)).Along FewReuses start as) :
    Sound ((machine : Machine (State R M c) (Action R M)).runTrace start as) :=
  trace_invariant (I := Sound) (fun _ a hs he hg => sound_step a hs he hg) start_sound hv hf

end ScopedSteps

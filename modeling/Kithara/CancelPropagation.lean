import Kithara.CancelTree

/-! Cancellation going down the tree. A live child of a flagged node is flagged itself or some
call of `cancel` still owes it; nothing is flagged that no call of `cancel` asked for. -/
namespace CancelTree

variable {W F : Type} {s t : System W F} {th : ℕ} {frame g : Frame W F}
  {rest : List (Frame W F)}

@[simp] theorem edit_self (s : System W F) (n : ℕ) (f : Node W F → Node W F) :
    (s.edit n f).nodes n = f (s.nodes n) :=
  Function.update_self ..

theorem edit_other (s : System W F) {n m : ℕ} (f : Node W F → Node W F) (h : m ≠ n) :
    (s.edit n f).nodes m = s.nodes m :=
  Function.update_of_ne h ..

/-- A field that the edit leaves alone is the same at every node. -/
theorem edit_field {α : Type} (s : System W F) (n m : ℕ) (f : Node W F → Node W F)
    (field : Node W F → α) (h : ∀ node, field (f node) = field node) :
    field ((s.edit n f).nodes m) = field (s.nodes m) := by
  by_cases hm : m = n
  · rw [hm, edit_self, h]
  · rw [edit_other s f hm]

@[simp] theorem add_new (s : System W F) (node : Node W F) :
    (s.add node).nodes s.count = node :=
  Function.update_self ..

theorem add_other (s : System W F) {m : ℕ} (node : Node W F) (h : m ≠ s.count) :
    (s.add node).nodes m = s.nodes m :=
  Function.update_of_ne h ..

theorem runFrame_threads (s : System W F) (frame : Frame W F) :
    (s.runFrame frame).1.threads = s.threads := by
  cases frame with
  | swap n =>
    rw [System.runFrame]
    split <;> rfl
  | drain n => rfl
  | fire n drained => cases drained <;> rfl
  | walk n children => cases children <;> rfl
  | fireAtOnce n key slot => rfl
  | wake n waker => rfl

theorem step_eq (h : s.threads th = frame :: rest) :
    s.step th = (s.runFrame frame).1.setThread th ((s.runFrame frame).2 ++ rest) := by
  rw [System.step, h]

theorem step_nodes (h : s.threads th = frame :: rest) :
    (s.step th).nodes = (s.runFrame frame).1.nodes := by
  rw [step_eq h]
  rfl

theorem runFrame_workers (s : System W F) (frame : Frame W F) :
    (s.runFrame frame).1.workers = s.workers ∧ (s.runFrame frame).1.count = s.count := by
  cases frame with
  | swap n =>
    rw [System.runFrame]
    split <;> exact ⟨rfl, rfl⟩
  | drain n => exact ⟨rfl, rfl⟩
  | fire n drained => cases drained <;> exact ⟨rfl, rfl⟩
  | walk n children => cases children <;> exact ⟨rfl, rfl⟩
  | fireAtOnce n key slot => exact ⟨rfl, rfl⟩
  | wake n waker => exact ⟨rfl, rfl⟩

theorem step_workers (h : s.threads th = frame :: rest) :
    (s.step th).workers = s.workers ∧ (s.step th).count = s.count := by
  rw [step_eq h]
  exact runFrame_workers s frame

theorem runFrame_swap {n : ℕ} (h : (s.nodes n).flag = false) :
    s.runFrame (.swap n) = (s.edit n fun node => { node with flag := true }, [.drain n]) := by
  rw [System.runFrame, h]
  rfl

theorem runFrame_swapped {n : ℕ} (h : (s.nodes n).flag = true) :
    s.runFrame (.swap n) = (s, []) := by
  rw [System.runFrame, h]
  rfl

theorem swap_nodes {n : ℕ} (h : s.threads th = .swap n :: rest) (hunset : (s.nodes n).flag = false) :
    (s.step th).nodes = (s.edit n fun node => { node with flag := true }).nodes := by
  rw [step_nodes h, runFrame_swap hunset]

theorem swap_flag {n : ℕ} (h : s.threads th = .swap n :: rest) (hunset : (s.nodes n).flag = false) :
    ((s.step th).nodes n).flag = true ∧
      ∀ m, m ≠ n → ((s.step th).nodes m).flag = (s.nodes m).flag := by
  rw [swap_nodes h hunset]
  refine ⟨by rw [edit_self], ?_⟩
  intro m hm
  rw [edit_other s _ hm]

theorem drain_nodes {n : ℕ} (h : s.threads th = .drain n :: rest) :
    (s.step th).nodes = (s.setWakers n (s.nodes n).wakers.drain.1).nodes := by
  rw [step_nodes h]
  rfl

theorem snapshot_nodes {n : ℕ} (h : s.threads th = .fire n [] :: rest) :
    (s.step th).nodes = (s.edit n fun node => { node with children := [] }).nodes := by
  rw [step_nodes h]
  rfl

theorem step_stack (h : s.threads th = frame :: rest) :
    (s.step th).threads th = (s.runFrame frame).2 ++ rest := by
  rw [step_eq h]
  exact Function.update_self ..

theorem step_otherStack (h : s.threads th = frame :: rest) {other : ℕ} (hne : other ≠ th) :
    (s.step th).threads other = s.threads other := by
  rw [step_eq h, ← runFrame_threads s frame]
  exact Function.update_of_ne hne ..

theorem runs_after (h : s.threads th = frame :: rest) (hg : (s.step th).Runs g) :
    g ∈ (s.runFrame frame).2 ∨ s.Runs g := by
  obtain ⟨other, hg⟩ := hg
  by_cases hne : other = th
  · rw [hne, step_stack h] at hg
    rcases List.mem_append.mp hg with hnew | hold
    · exact .inl hnew
    · exact .inr ⟨th, by rw [h]; exact List.mem_cons_of_mem frame hold⟩
  · rw [step_otherStack h hne] at hg
    exact .inr ⟨other, hg⟩

theorem runs_new (h : s.threads th = frame :: rest) (hg : g ∈ (s.runFrame frame).2) :
    (s.step th).Runs g :=
  ⟨th, by rw [step_stack h]; exact List.mem_append_left rest hg⟩

theorem runs_kept (h : s.threads th = frame :: rest) (hg : s.Runs g) :
    g = frame ∨ (s.step th).Runs g := by
  obtain ⟨other, hg⟩ := hg
  by_cases hne : other = th
  · rw [hne, h] at hg
    rcases List.mem_cons.mp hg with heq | hrest
    · exact .inl heq
    · exact .inr ⟨th, by rw [step_stack h]; exact List.mem_append_right _ hrest⟩
  · exact .inr ⟨other, by rw [step_otherStack h hne]; exact hg⟩

theorem begin_self (s : System W F) (th : ℕ) (frame : Frame W F) :
    (s.begin th frame).threads th = frame :: s.threads th :=
  Function.update_self ..

theorem begin_other (s : System W F) {th other : ℕ} (frame : Frame W F) (h : other ≠ th) :
    (s.begin th frame).threads other = s.threads other :=
  Function.update_of_ne h ..

theorem runs_begin : (s.begin th frame).Runs g ↔ g = frame ∨ s.Runs g := by
  constructor
  · rintro ⟨other, hg⟩
    by_cases hne : other = th
    · rw [hne, begin_self] at hg
      rcases List.mem_cons.mp hg with heq | hold
      · exact .inl heq
      · exact .inr ⟨th, hold⟩
    · rw [begin_other s frame hne] at hg
      exact .inr ⟨other, hg⟩
  · rintro (rfl | ⟨other, hg⟩)
    · exact ⟨th, by rw [begin_self]; exact List.mem_cons_self⟩
    · refine ⟨other, ?_⟩
      by_cases hne : other = th
      · rw [hne, begin_self, ← hne]
        exact List.mem_cons_of_mem frame hg
      · rw [begin_other s frame hne]
        exact hg

theorem step_running (h : Enabled s (.step th)) : ∃ frame rest, s.threads th = frame :: rest := by
  obtain ⟨-, hne⟩ := h
  cases hstack : s.threads th with
  | nil => exact absurd hstack hne
  | cons frame rest => exact ⟨frame, rest, rfl⟩

structure SameShape (s t : System W F) : Prop where
  count : t.count = s.count
  live : ∀ n, (t.nodes n).live = (s.nodes n).live
  parent : ∀ n, (t.nodes n).parent = (s.nodes n).parent

/-- All the walk down looks at is the same in both states. -/
structure SameTree (s t : System W F) : Prop extends SameShape s t where
  flag : ∀ n, (t.nodes n).flag = (s.nodes n).flag
  children : ∀ n, (t.nodes n).children = (s.nodes n).children

theorem SameShape.parentOf (h : SameShape s t) {p c : ℕ} : t.ParentOf p c ↔ s.ParentOf p c := by
  rw [System.ParentOf, System.ParentOf, h.parent]

theorem sameShape_edit {n : ℕ} {f : Node W F → Node W F} (hcount : t.count = s.count)
    (hnodes : t.nodes = (s.edit n f).nodes) (hlive : ∀ node, (f node).live = node.live)
    (hparent : ∀ node, (f node).parent = node.parent) : SameShape s t := by
  refine ⟨hcount, ?_, ?_⟩
  · intro m
    rw [hnodes]
    exact edit_field s n m f Node.live hlive
  · intro m
    rw [hnodes]
    exact edit_field s n m f Node.parent hparent

theorem sameTree_of_nodes (hcount : t.count = s.count) (hnodes : t.nodes = s.nodes) :
    SameTree s t :=
  ⟨⟨hcount, fun n => by rw [hnodes], fun n => by rw [hnodes]⟩, fun n => by rw [hnodes],
    fun n => by rw [hnodes]⟩

theorem sameTree_wakers {n : ℕ} {wakers : WakerSlots W F} (hcount : t.count = s.count)
    (hnodes : t.nodes = (s.setWakers n wakers).nodes) :
    SameTree s t := by
  refine ⟨sameShape_edit hcount hnodes (fun _ => rfl) fun _ => rfl, ?_, ?_⟩
  · intro m
    rw [hnodes]
    exact edit_field s n m _ Node.flag fun _ => rfl
  · intro m
    rw [hnodes]
    exact edit_field s n m _ Node.children fun _ => rfl

theorem register_sameTree (s : System W F) (th n : ℕ) (slot : Slot W F) :
    SameTree s (s.register th n slot) := by
  rw [System.register]
  split
  · exact sameTree_wakers (n := n) rfl rfl
  · exact sameTree_wakers (n := n) rfl rfl

theorem refreshTask_sameTree (s : System W F) (th n id : ℕ) (waker : W) :
    SameTree s (s.refreshTask th n id waker) := by
  rw [System.refreshTask]
  split
  · exact sameTree_wakers (n := n) rfl rfl
  · exact sameTree_of_nodes rfl rfl

theorem register_runs (s : System W F) (th n : ℕ) (slot : Slot W F)
    (hg : (s.register th n slot).Runs g) :
    g = .fireAtOnce n s.registrations.length slot ∨ s.Runs g := by
  rw [System.register] at hg
  split at hg
  · exact .inr hg
  · exact runs_begin.mp hg

theorem runs_register (s : System W F) (th n : ℕ) (slot : Slot W F) (hg : s.Runs g) :
    (s.register th n slot).Runs g := by
  rw [System.register]
  split
  · exact hg
  · exact runs_begin.mpr (.inr hg)

theorem refreshTask_runs (s : System W F) (th n id : ℕ) (waker : W)
    (hg : (s.refreshTask th n id waker).Runs g) : g = .wake n waker ∨ s.Runs g := by
  rw [System.refreshTask] at hg
  split at hg
  · exact .inr hg
  · exact runs_begin.mp hg

theorem runs_refreshTask (s : System W F) (th n id : ℕ) (waker : W) (hg : s.Runs g) :
    (s.refreshTask th n id waker).Runs g := by
  rw [System.refreshTask]
  split
  · exact hg
  · exact runs_begin.mpr (.inr hg)

/-- The call that stands at `frame` will still come to the child `c` of `p`. -/
def System.OwedBy (s : System W F) (p c : ℕ) : Frame W F → Prop
  | .swap n => n = c
  | .drain n => n = p ∧ c ∈ (s.nodes p).children
  | .fire n _ => n = p ∧ c ∈ (s.nodes p).children
  | .walk _ children => c ∈ children
  | .fireAtOnce _ _ _ => False
  | .wake _ _ => False

def System.Owed (s : System W F) (p c : ℕ) : Prop :=
  ∃ frame, s.Runs frame ∧ s.OwedBy p c frame

structure Node.Unborn (node : Node W F) : Prop where
  live : node.live = false
  children : node.children = []
  parent : node.parent = none

structure Propagating (s : System W F) : Prop where
  fresh : ∀ n, s.count ≤ n → (s.nodes n).Unborn
  held : ∀ p c, s.ParentOf p c → (s.nodes c).live = true → (s.nodes p).live = true
  parents : ∀ p, ∀ c ∈ (s.nodes p).children, s.ParentOf p c
  listed : ∀ p c, s.ParentOf p c → (s.nodes c).live = true → (s.nodes p).flag = false →
    c ∈ (s.nodes p).children
  passed : ∀ p c, s.ParentOf p c → (s.nodes c).live = true → (s.nodes p).flag = true →
    (s.nodes c).flag = true ∨ s.Owed p c

theorem live_below (h : Propagating s) {n : ℕ} (hn : (s.nodes n).live = true) : n < s.count := by
  by_contra hge
  rw [(h.fresh n (by omega)).live] at hn
  exact absurd hn Bool.false_ne_true

theorem child_below (h : Propagating s) {p c : ℕ} (hc : s.ParentOf p c) : c < s.count := by
  by_contra hge
  rw [System.ParentOf, (h.fresh c (by omega)).parent] at hc
  cases hc

/-- A debt outlives every step that keeps the frame and the children of the parent. -/
theorem owed_kept {p c : ℕ} (hchildren : (t.nodes p).children = (s.nodes p).children)
    (hruns : t.Runs g) (hg : s.OwedBy p c g) : t.Owed p c := by
  refine ⟨g, hruns, ?_⟩
  cases g with
  | swap n => exact hg
  | drain n => exact ⟨hg.1, hchildren ▸ hg.2⟩
  | fire n drained => exact ⟨hg.1, hchildren ▸ hg.2⟩
  | walk n children => exact hg
  | fireAtOnce n key slot => exact hg
  | wake n waker => exact hg

theorem initial_propagating (workers : ℕ) : Propagating (initial workers : System W F) := by
  refine ⟨fun n _ => ⟨rfl, rfl, rfl⟩, ?_, ?_, ?_, ?_⟩
  · intro p c hparent
    exact absurd hparent (by simp [System.ParentOf, initial])
  · intro p c hmem
    exact absurd hmem List.not_mem_nil
  · intro p c hparent
    exact absurd hparent (by simp [System.ParentOf, initial])
  · intro p c hparent
    exact absurd hparent (by simp [System.ParentOf, initial])

theorem sameShape_propagating (h : Propagating s) (hshape : SameShape s t)
    (hsub : ∀ p, ∀ c ∈ (t.nodes p).children, c ∈ (s.nodes p).children)
    (hlisted : ∀ p, (t.nodes p).flag = false → (s.nodes p).flag = false ∧
      (t.nodes p).children = (s.nodes p).children)
    (hpassed : ∀ p c, s.ParentOf p c → (s.nodes c).live = true → (t.nodes p).flag = true →
      (t.nodes c).flag = true ∨ t.Owed p c) : Propagating t := by
  refine ⟨?_, ?_, ?_, ?_, ?_⟩
  · intro n hn
    have hborn := h.fresh n (by rw [← hshape.count]; exact hn)
    refine ⟨by rw [hshape.live, hborn.live], ?_, by rw [hshape.parent, hborn.parent]⟩
    apply List.eq_nil_iff_forall_not_mem.mpr
    intro c hc
    have hold := hsub n c hc
    rw [hborn.children] at hold
    exact List.not_mem_nil hold
  · intro p c hparent hlive
    rw [hshape.live] at hlive ⊢
    exact h.held p c (hshape.parentOf.mp hparent) hlive
  · intro p c hmem
    exact hshape.parentOf.mpr (h.parents p c (hsub p c hmem))
  · intro p c hparent hlive hflag
    rw [hshape.live] at hlive
    obtain ⟨hunset, hchildren⟩ := hlisted p hflag
    rw [hchildren]
    exact h.listed p c (hshape.parentOf.mp hparent) hlive hunset
  · intro p c hparent hlive hflag
    rw [hshape.live] at hlive
    exact hpassed p c (hshape.parentOf.mp hparent) hlive hflag

theorem sameTree_propagating (h : Propagating s) (hsame : SameTree s t)
    (howed : ∀ p c, s.Owed p c → (s.nodes c).flag = true ∨ t.Owed p c) : Propagating t := by
  refine sameShape_propagating h hsame.toSameShape ?_ ?_ ?_
  · intro p c hmem
    rw [← hsame.children]
    exact hmem
  · intro p hflag
    rw [hsame.flag] at hflag
    exact ⟨hflag, hsame.children p⟩
  · intro p c hparent hlive hflag
    rw [hsame.flag] at hflag ⊢
    rcases h.passed p c hparent hlive hflag with hset | howes
    · exact .inl hset
    · exact howed p c howes

/-- Steps that start a call keep every debt. -/
theorem begun_propagating (h : Propagating s) (hsame : SameTree s t)
    (hruns : ∀ g, s.Runs g → t.Runs g) : Propagating t := by
  refine sameTree_propagating h hsame ?_
  rintro p c ⟨g, hg, howes⟩
  exact .inr (owed_kept (hsame.children p) (hruns g hg) howes)

/-- `node` was added to the tree: under its parent, if it has one, and cancelled if that was. -/
structure Grown (s t : System W F) (node : Node W F) : Prop where
  count : t.count = s.count + 1
  threads : t.threads = s.threads
  born : t.nodes s.count = node
  flag : ∀ n, n ≠ s.count → (t.nodes n).flag = (s.nodes n).flag
  live : ∀ n, n ≠ s.count → (t.nodes n).live = (s.nodes n).live
  parent : ∀ n, n ≠ s.count → (t.nodes n).parent = (s.nodes n).parent
  wakers : ∀ n, n ≠ s.count → (t.nodes n).wakers = (s.nodes n).wakers
  kept : ∀ p, p ≠ s.count → ∀ c ∈ (s.nodes p).children, (s.nodes c).live = true →
    c ∈ (t.nodes p).children
  only : ∀ p, p ≠ s.count → ∀ c ∈ (t.nodes p).children,
    c ∈ (s.nodes p).children ∨ (c = s.count ∧ node.parent = some p)
  childless : node.children = []
  under : ∀ p, node.parent = some p → (s.nodes p).live = true ∧
    node.flag = (s.nodes p).flag ∧ s.count ∈ (t.nodes p).children

theorem root_grown (s : System W F) :
    Grown s (next s (.root : Event W F)) ({ live := true } : Node W F) := by
  have hother : ∀ m, m ≠ s.count → (next s (.root : Event W F)).nodes m = s.nodes m :=
    fun m hm => add_other s _ hm
  refine ⟨rfl, rfl, add_new s _, ?_, ?_, ?_, ?_, ?_, ?_, rfl, ?_⟩
  · intro n hn
    rw [hother n hn]
  · intro n hn
    rw [hother n hn]
  · intro n hn
    rw [hother n hn]
  · intro n hn
    rw [hother n hn]
  · intro p hp c hc _
    rw [hother p hp]
    exact hc
  · intro p hp c hc
    rw [hother p hp] at hc
    exact .inl hc
  · intro p hp
    cases hp

theorem child_grown (h : Propagating s) {p : ℕ} (hp : (s.nodes p).live = true) :
    Grown s (s.child p) (s.bornUnder p) := by
  have hne : p ≠ s.count := Nat.ne_of_lt (live_below h hp)
  have hother : ∀ m, m ≠ s.count → (s.child p).nodes m =
      (s.edit p fun node => { node with children := s.liveChildren p ++ [s.count] }).nodes m :=
    fun m hm => add_other _ _ hm
  have hchildren : ((s.child p).nodes p).children = s.liveChildren p ++ [s.count] := by
    rw [hother p hne, edit_self]
  have hrest : ∀ m, m ≠ s.count → m ≠ p → (s.child p).nodes m = s.nodes m := by
    intro m hm hmp
    rw [hother m hm, edit_other s _ hmp]
  refine ⟨rfl, rfl, add_new _ _, ?_, ?_, ?_, ?_, ?_, ?_, rfl, ?_⟩
  · intro n hn
    rw [hother n hn]
    exact edit_field s p n _ Node.flag fun _ => rfl
  · intro n hn
    rw [hother n hn]
    exact edit_field s p n _ Node.live fun _ => rfl
  · intro n hn
    rw [hother n hn]
    exact edit_field s p n _ Node.parent fun _ => rfl
  · intro n hn
    rw [hother n hn]
    exact edit_field s p n _ Node.wakers fun _ => rfl
  · intro q hq c hc hlive
    by_cases hqp : q = p
    · rw [hqp] at hc
      rw [hqp, hchildren]
      exact List.mem_append_left _ (List.mem_filter.mpr ⟨hc, hlive⟩)
    · rw [hrest q hq hqp]
      exact hc
  · intro q hq c hc
    by_cases hqp : q = p
    · rw [hqp, hchildren] at hc
      rw [hqp]
      rcases List.mem_append.mp hc with hold | hnew
      · exact .inl (List.mem_filter.mp hold).1
      · exact .inr ⟨List.mem_singleton.mp hnew, rfl⟩
    · rw [hrest q hq hqp] at hc
      exact .inl hc
  · intro q hq
    obtain rfl : p = q := Option.some.inj hq
    refine ⟨hp, rfl, ?_⟩
    rw [hchildren]
    exact List.mem_append_right _ (List.mem_singleton.mpr rfl)

theorem Grown.parentOf {node : Node W F} (h : Grown s t node) {p c : ℕ} (hc : t.ParentOf p c) :
    (c = s.count ∧ node.parent = some p) ∨ (c ≠ s.count ∧ s.ParentOf p c) := by
  by_cases hnew : c = s.count
  · rw [System.ParentOf, hnew, h.born] at hc
    exact .inl ⟨hnew, hc⟩
  · rw [System.ParentOf, h.parent c hnew] at hc
    exact .inr ⟨hnew, hc⟩

theorem Grown.runs {node : Node W F} (h : Grown s t node) : t.Runs g ↔ s.Runs g := by
  rw [System.Runs, System.Runs, h.threads]

theorem parent_below (h : Propagating s) {p c : ℕ} (hc : s.ParentOf p c)
    (hlive : (s.nodes c).live = true) : p ≠ s.count :=
  Nat.ne_of_lt (live_below h (h.held p c hc hlive))

theorem grown_propagating {node : Node W F} (h : Propagating s) (hg : Grown s t node) :
    Propagating t := by
  refine ⟨?_, ?_, ?_, ?_, ?_⟩
  · intro n hn
    rw [hg.count] at hn
    have hne : n ≠ s.count := by omega
    have hold := h.fresh n (by omega)
    refine ⟨by rw [hg.live n hne, hold.live], ?_, by rw [hg.parent n hne, hold.parent]⟩
    apply List.eq_nil_iff_forall_not_mem.mpr
    intro c hc
    rcases hg.only n hne c hc with hmem | ⟨-, hparent⟩
    · rw [hold.children] at hmem
      exact List.not_mem_nil hmem
    · have hlive := (hg.under n hparent).1
      rw [hold.live] at hlive
      exact Bool.false_ne_true hlive
  · intro p c hparent hlive
    rcases hg.parentOf hparent with ⟨-, hp⟩ | ⟨hne, hp⟩
    · have hplive := (hg.under p hp).1
      rw [hg.live p (Nat.ne_of_lt (live_below h hplive))]
      exact hplive
    · rw [hg.live c hne] at hlive
      rw [hg.live p (parent_below h hp hlive)]
      exact h.held p c hp hlive
  · intro p c hmem
    by_cases hnew : p = s.count
    · rw [hnew, hg.born, hg.childless] at hmem
      exact absurd hmem List.not_mem_nil
    · rcases hg.only p hnew c hmem with hold | ⟨rfl, hparent⟩
      · have hc := h.parents p c hold
        rw [System.ParentOf, hg.parent c (Nat.ne_of_lt (child_below h hc))]
        exact hc
      · rw [System.ParentOf, hg.born]
        exact hparent
  · intro p c hparent hlive hflag
    rcases hg.parentOf hparent with ⟨rfl, hp⟩ | ⟨hne, hp⟩
    · exact (hg.under p hp).2.2
    · rw [hg.live c hne] at hlive
      have hpne := parent_below h hp hlive
      rw [hg.flag p hpne] at hflag
      exact hg.kept p hpne c (h.listed p c hp hlive hflag) hlive
  · intro p c hparent hlive hflag
    rcases hg.parentOf hparent with ⟨rfl, hp⟩ | ⟨hne, hp⟩
    · obtain ⟨hplive, hborn, -⟩ := hg.under p hp
      rw [hg.flag p (Nat.ne_of_lt (live_below h hplive))] at hflag
      rw [hg.born, hborn]
      exact .inl hflag
    · rw [hg.live c hne] at hlive
      have hpne := parent_below h hp hlive
      rw [hg.flag p hpne] at hflag
      rw [hg.flag c hne]
      rcases h.passed p c hp hlive hflag with hset | ⟨g, hruns, howes⟩
      · exact .inl hset
      · refine .inr ⟨g, hg.runs.mpr hruns, ?_⟩
        cases g with
        | swap n => exact howes
        | drain n => exact ⟨howes.1, hg.kept p hpne c howes.2 hlive⟩
        | fire n drained => exact ⟨howes.1, hg.kept p hpne c howes.2 hlive⟩
        | walk n children => exact howes
        | fireAtOnce n key slot => exact howes
        | wake n waker => exact howes

theorem drop_propagating (h : Propagating s) {n : ℕ} (he : Enabled s (.drop n)) :
    Propagating (next s (.drop n)) := by
  obtain ⟨-, hchildless, -⟩ := he
  have hflag : ∀ m, ((next s (.drop n)).nodes m).flag = (s.nodes m).flag :=
    fun m => edit_field s n m (fun node => { node with live := false }) Node.flag fun _ => rfl
  have hchildren : ∀ m, ((next s (.drop n)).nodes m).children = (s.nodes m).children :=
    fun m => edit_field s n m (fun node => { node with live := false }) Node.children fun _ => rfl
  have hparent : ∀ m, ((next s (.drop n)).nodes m).parent = (s.nodes m).parent :=
    fun m => edit_field s n m (fun node => { node with live := false }) Node.parent fun _ => rfl
  have hlive : ∀ m, ((next s (.drop n)).nodes m).live = true → m ≠ n ∧ (s.nodes m).live = true := by
    intro m hm
    by_cases hmn : m = n
    · rw [hmn, next, edit_self] at hm
      exact absurd hm Bool.false_ne_true
    · rw [next, edit_other s _ hmn] at hm
      exact ⟨hmn, hm⟩
  have hparentOf : ∀ p c, (next s (.drop n)).ParentOf p c → s.ParentOf p c := by
    intro p c hc
    rw [System.ParentOf, hparent] at hc
    exact hc
  refine ⟨?_, ?_, ?_, ?_, ?_⟩
  · intro m hm
    have hborn := h.fresh m hm
    refine ⟨?_, by rw [hchildren, hborn.children], by rw [hparent, hborn.parent]⟩
    by_contra hm
    have hold := (hlive m (Bool.not_eq_false _ ▸ hm)).2
    rw [hborn.live] at hold
    exact Bool.false_ne_true hold
  · intro p c hc hc'
    have hpc := hparentOf p c hc
    obtain ⟨-, hclive⟩ := hlive c hc'
    have hpn : p ≠ n := by
      rintro rfl
      have hdead := hchildless c (child_below h hpc) hpc
      rw [hclive] at hdead
      exact Bool.false_ne_true hdead.symm
    rw [next, edit_other s _ hpn]
    exact h.held p c hpc hclive
  · intro p c hmem
    rw [hchildren] at hmem
    rw [System.ParentOf, hparent]
    exact h.parents p c hmem
  · intro p c hc hc' hset
    rw [hflag] at hset
    rw [hchildren]
    exact h.listed p c (hparentOf p c hc) (hlive c hc').2 hset
  · intro p c hc hc' hset
    rw [hflag] at hset ⊢
    rcases h.passed p c (hparentOf p c hc) (hlive c hc').2 hset with hdone | ⟨g, hruns, howes⟩
    · exact .inl hdone
    · exact .inr (owed_kept (hchildren p) hruns howes)

/-- Some call of `cancel` was made on the node or on one of its ancestors. -/
def System.Requested (s : System W F) (n : ℕ) : Prop :=
  n < s.count ∧ ∃ a ∈ s.requested, s.Descends a n

def System.Sound (s : System W F) : Frame W F → Prop
  | .swap n => s.Requested n
  | .drain n => (s.nodes n).flag = true
  | .fire n _ => (s.nodes n).flag = true
  | .walk _ children => ∀ c ∈ children, s.Requested c
  | .fireAtOnce _ _ _ => True
  | .wake _ _ => True

structure Requesting (s : System W F) : Prop where
  flagged : ∀ n, (s.nodes n).flag = true → s.Requested n
  sound : ∀ frame, s.Runs frame → s.Sound frame

theorem step_sameTree {rest : List (Frame W F)} (h : s.threads th = frame :: rest)
    (hnodes : (s.runFrame frame).1.nodes = s.nodes) (hcount : (s.runFrame frame).1.count = s.count) :
    SameTree s (s.step th) := by
  refine sameTree_of_nodes ?_ ?_
  · rw [step_eq h]
    exact hcount
  · rw [step_nodes h, hnodes]

theorem drain_sameTree {n : ℕ} (h : s.threads th = .drain n :: rest) :
    SameTree s (s.step th) :=
  sameTree_wakers (step_workers h).2 (drain_nodes h)

/-- A step whose frame hands on all it owed, and changes the tree nowhere. -/
theorem handed_propagating (h : Propagating s) (hstack : s.threads th = frame :: rest)
    (hsame : SameTree s (s.step th))
    (hframe : ∀ p c, s.OwedBy p c frame → (s.nodes c).flag = true ∨ (s.step th).Owed p c) :
    Propagating (s.step th) := by
  refine sameTree_propagating h hsame ?_
  rintro p c ⟨g, hruns, howes⟩
  rcases runs_kept hstack hruns with rfl | hkept
  · exact hframe p c howes
  · exact .inr (owed_kept (hsame.children p) hkept howes)

theorem swap_propagating (h : Propagating s) {n : ℕ} (hstack : s.threads th = .swap n :: rest)
    (hunset : (s.nodes n).flag = false) : Propagating (s.step th) := by
  have hrun := runFrame_swap hunset
  have hnodes := swap_nodes hstack hunset
  have hcount := (step_workers hstack).2
  have hchildren : ∀ m, ((s.step th).nodes m).children = (s.nodes m).children := by
    intro m
    rw [hnodes]
    exact edit_field s n m _ Node.children fun _ => rfl
  obtain ⟨hset, hother⟩ := swap_flag hstack hunset
  refine sameShape_propagating h
    (sameShape_edit hcount hnodes (fun _ => rfl) fun _ => rfl) ?_ ?_ ?_
  · intro p c hmem
    rw [← hchildren]
    exact hmem
  · intro p hp
    by_cases hpn : p = n
    · rw [hpn, hset] at hp
      exact absurd hp.symm Bool.false_ne_true
    · rw [hother p hpn] at hp
      exact ⟨hp, hchildren p⟩
  · intro p c hparent hlive hp
    by_cases hcn : c = n
    · rw [hcn]
      exact .inl hset
    rw [hother c hcn]
    by_cases hpn : p = n
    · -- the children are still to be walked: they wait at the drain
      have hmem := h.listed p c hparent hlive (by rw [hpn]; exact hunset)
      rw [← hchildren] at hmem
      have hdrain : .drain n ∈ (s.runFrame (.swap n)).2 := by
        rw [hrun]
        exact List.mem_cons_self
      exact .inr ⟨.drain n, runs_new hstack hdrain, hpn.symm, hmem⟩
    · rw [hother p hpn] at hp
      rcases h.passed p c hparent hlive hp with hdone | ⟨g, hruns, howes⟩
      · exact .inl hdone
      · rcases runs_kept hstack hruns with rfl | hkept
        · exact absurd howes.symm hcn
        · exact .inr (owed_kept (hchildren p) hkept howes)

theorem snapshot_propagating (h : Propagating s) {n : ℕ}
    (hstack : s.threads th = .fire n [] :: rest) (hset : (s.nodes n).flag = true) :
    Propagating (s.step th) := by
  have hnodes := snapshot_nodes hstack
  have hcount := (step_workers hstack).2
  have hflag : ∀ m, ((s.step th).nodes m).flag = (s.nodes m).flag := by
    intro m
    rw [hnodes]
    exact edit_field s n m _ Node.flag fun _ => rfl
  have hother : ∀ m, m ≠ n → ((s.step th).nodes m).children = (s.nodes m).children := by
    intro m hm
    rw [hnodes, edit_other s _ hm]
  have hwalk : ∀ c ∈ (s.nodes n).children, (s.nodes c).live = true → (s.step th).Owed n c := by
    intro c hmem hlive
    exact ⟨.walk n (s.liveChildren n), runs_new hstack List.mem_cons_self,
      List.mem_filter.mpr ⟨hmem, hlive⟩⟩
  refine sameShape_propagating h
    (sameShape_edit hcount hnodes (fun _ => rfl) fun _ => rfl) ?_ ?_ ?_
  · intro p c hmem
    by_cases hpn : p = n
    · rw [hpn, hnodes, edit_self] at hmem
      exact absurd hmem List.not_mem_nil
    · rw [hother p hpn] at hmem
      exact hmem
  · intro p hp
    rw [hflag] at hp
    have hpn : p ≠ n := by
      rintro rfl
      rw [hset] at hp
      exact Bool.false_ne_true hp.symm
    exact ⟨hp, hother p hpn⟩
  · intro p c hparent hlive hp
    rw [hflag] at hp ⊢
    rcases h.passed p c hparent hlive hp with hdone | ⟨g, hruns, howes⟩
    · exact .inl hdone
    right
    rcases runs_kept hstack hruns with rfl | hkept
    · obtain ⟨rfl, hmem⟩ := howes
      exact hwalk c hmem hlive
    by_cases hpn : p = n
    · -- another call that stood before its own snapshot of `n` finds none of the children left
      subst hpn
      cases g with
      | swap m => exact ⟨.swap m, hkept, howes⟩
      | drain m => exact hwalk c howes.2 hlive
      | fire m drained => exact hwalk c howes.2 hlive
      | walk m children => exact ⟨.walk m children, hkept, howes⟩
      | fireAtOnce m key slot => exact absurd howes id
      | wake m waker => exact absurd howes id
    · exact owed_kept (hother p hpn) hkept howes

theorem step_propagating (h : Propagating s) (hr : Requesting s) (he : Enabled s (.step th)) :
    Propagating (s.step th) := by
  obtain ⟨frame, rest, hstack⟩ := step_running he
  have hruns : s.Runs frame := ⟨th, by rw [hstack]; exact List.mem_cons_self⟩
  have hsound := hr.sound frame hruns
  cases frame with
  | swap n =>
    cases hflag : (s.nodes n).flag with
    | false => exact swap_propagating h hstack hflag
    | true =>
      have hrun := runFrame_swapped hflag
      refine handed_propagating h hstack (step_sameTree hstack (by rw [hrun]) (by rw [hrun])) ?_
      rintro p c rfl
      exact .inl hflag
  | drain n =>
    have hsame := drain_sameTree hstack
    refine handed_propagating h hstack hsame ?_
    rintro p c ⟨rfl, hmem⟩
    refine .inr ⟨_, runs_new hstack List.mem_cons_self, rfl, ?_⟩
    rw [hsame.children]
    exact hmem
  | fire n drained =>
    cases drained with
    | nil => exact snapshot_propagating h hstack hsound
    | cons entry drained =>
      have hsame := step_sameTree hstack rfl rfl
      refine handed_propagating h hstack hsame ?_
      rintro p c ⟨rfl, hmem⟩
      refine .inr ⟨_, runs_new hstack List.mem_cons_self, rfl, ?_⟩
      rw [hsame.children]
      exact hmem
  | walk n children =>
    refine handed_propagating h hstack ?_ ?_
    · cases children with
      | nil => exact step_sameTree hstack rfl rfl
      | cons first children => exact step_sameTree hstack rfl rfl
    · intro p c howes
      cases children with
      | nil => exact absurd howes List.not_mem_nil
      | cons first children =>
        rcases List.mem_cons.mp howes with rfl | hlater
        · exact .inr ⟨_, runs_new hstack List.mem_cons_self, rfl⟩
        · exact .inr ⟨.walk n children,
            runs_new hstack (List.mem_cons_of_mem _ List.mem_cons_self), hlater⟩
  | fireAtOnce n key slot =>
    exact handed_propagating h hstack (step_sameTree hstack rfl rfl) fun _ _ => False.elim
  | wake n waker =>
    exact handed_propagating h hstack (step_sameTree hstack rfl rfl) fun _ _ => False.elim

theorem requested_mono (hcount : s.count ≤ t.count) (hrequested : ∀ a ∈ s.requested, a ∈ t.requested)
    (hparent : ∀ p c, s.ParentOf p c → t.ParentOf p c) {n : ℕ} (h : s.Requested n) :
    t.Requested n := by
  obtain ⟨hbelow, a, ha, hpath⟩ := h
  exact ⟨Nat.lt_of_lt_of_le hbelow hcount, a, hrequested a ha,
    Relation.ReflTransGen.mono hparent a n hpath⟩

theorem requested_child (hp : Propagating s) {p c : ℕ} (h : s.Requested p) (hc : s.ParentOf p c) :
    s.Requested c := by
  obtain ⟨-, a, ha, hpath⟩ := h
  exact ⟨child_below hp hc, a, ha, hpath.tail hc⟩

theorem requesting_after (h : Requesting s) (hmono : ∀ n, s.Requested n → t.Requested n)
    (hkept : ∀ n, (s.nodes n).flag = true → (t.nodes n).flag = true)
    (hflag : ∀ n, (t.nodes n).flag = true → (s.nodes n).flag = true ∨ t.Requested n)
    (hframes : ∀ g, t.Runs g → s.Runs g ∨ t.Sound g) : Requesting t := by
  constructor
  · intro n hn
    rcases hflag n hn with hold | hnew
    · exact hmono n (h.flagged n hold)
    · exact hnew
  · intro g hg
    rcases hframes g hg with hold | hnew
    · have hsound := h.sound g hold
      cases g with
      | swap n => exact hmono n hsound
      | drain n => exact hkept n hsound
      | fire n drained => exact hkept n hsound
      | walk n children => exact fun c hc => hmono c (hsound c hc)
      | fireAtOnce n key slot => exact hsound
      | wake n waker => exact hsound
    · exact hnew

theorem sameShape_requested (hshape : SameShape s t) (hrequested : t.requested = s.requested)
    {n : ℕ} (h : s.Requested n) : t.Requested n := by
  refine requested_mono (Nat.le_of_eq hshape.count.symm) ?_ (fun p c => hshape.parentOf.mpr) h
  intro a ha
  rw [hrequested]
  exact ha

theorem sameShape_requesting (h : Requesting s) (hshape : SameShape s t)
    (hflag : ∀ n, (t.nodes n).flag = (s.nodes n).flag) (hrequested : t.requested = s.requested)
    (hframes : ∀ g, t.Runs g → s.Runs g ∨ t.Sound g) : Requesting t := by
  refine requesting_after h (fun n => sameShape_requested hshape hrequested) ?_ ?_ hframes
  · intro n hn
    rw [hflag]
    exact hn
  · intro n hn
    rw [hflag] at hn
    exact .inl hn

theorem grown_requesting {node : Node W F} (hp : Propagating s) (h : Requesting s)
    (hg : Grown s t node) (hrequested : t.requested = s.requested)
    (hroot : node.parent = none → node.flag = false) : Requesting t := by
  have hmono : ∀ n, s.Requested n → t.Requested n := by
    intro n hn
    refine requested_mono (by rw [hg.count]; exact Nat.le_succ _) ?_ ?_ hn
    · intro a ha
      rw [hrequested]
      exact ha
    · intro p c hc
      rw [System.ParentOf, hg.parent c (Nat.ne_of_lt (child_below hp hc))]
      exact hc
  refine requesting_after h hmono ?_ ?_ ?_
  · intro n hn
    by_cases hnew : n = s.count
    · exact absurd (h.flagged n hn).1 (by omega)
    · rw [hg.flag n hnew]
      exact hn
  · intro n hn
    by_cases hnew : n = s.count
    · rw [hnew, hg.born] at hn
      rw [hnew]
      cases hparent : node.parent with
      | none =>
        rw [hroot hparent] at hn
        exact absurd hn Bool.false_ne_true
      | some p =>
        obtain ⟨-, hborn, hmem⟩ := hg.under p hparent
        rw [hborn] at hn
        refine .inr (requested_child (grown_propagating hp hg) (hmono p (h.flagged p hn)) ?_)
        rw [System.ParentOf, hg.born]
        exact hparent
    · rw [hg.flag n hnew] at hn
      exact .inl hn
  · intro g hruns
    exact .inl (hg.runs.mp hruns)

theorem swap_requesting (h : Requesting s) {n : ℕ} (hstack : s.threads th = .swap n :: rest)
    (hunset : (s.nodes n).flag = false) : Requesting (s.step th) := by
  have hsound : s.Requested n := h.sound (.swap n) ⟨th, by rw [hstack]; exact List.mem_cons_self⟩
  have hrun := runFrame_swap hunset
  have hnodes := swap_nodes hstack hunset
  have hcount := (step_workers hstack).2
  have hshape := sameShape_edit hcount hnodes (fun _ => rfl) fun _ => rfl
  have hrequested : (s.step th).requested = s.requested := by
    rw [step_eq hstack, hrun]
    rfl
  obtain ⟨hset, hother⟩ := swap_flag hstack hunset
  refine requesting_after h (fun m => sameShape_requested hshape hrequested) ?_ ?_ ?_
  · intro m hm
    by_cases hmn : m = n
    · rw [hmn]
      exact hset
    · rw [hother m hmn]
      exact hm
  · intro m hm
    by_cases hmn : m = n
    · rw [hmn]
      exact .inr (sameShape_requested hshape hrequested hsound)
    · rw [hother m hmn] at hm
      exact .inl hm
  · intro g hg
    rcases runs_after hstack hg with hin | hold
    · rw [hrun] at hin
      obtain rfl := List.mem_singleton.mp hin
      exact .inr hset
    · exact .inl hold

theorem step_requesting (hp : Propagating s) (h : Requesting s) (he : Enabled s (.step th)) :
    Requesting (s.step th) := by
  obtain ⟨frame, rest, hstack⟩ := step_running he
  have hsound := h.sound frame ⟨th, by rw [hstack]; exact List.mem_cons_self⟩
  have hrequested : (s.runFrame frame).1.requested = s.requested →
      (s.step th).requested = s.requested := by
    intro hrun
    rw [step_eq hstack]
    exact hrun
  have hplain : SameShape s (s.step th) →
      (∀ n, ((s.step th).nodes n).flag = (s.nodes n).flag) →
      (s.runFrame frame).1.requested = s.requested →
      (∀ g ∈ (s.runFrame frame).2, (s.step th).Sound g) → Requesting (s.step th) := by
    intro hshape hflag hrun hnew
    refine sameShape_requesting h hshape hflag (hrequested hrun) ?_
    intro g hg
    rcases runs_after hstack hg with hin | hold
    · exact .inr (hnew g hin)
    · exact .inl hold
  cases frame with
  | swap n =>
    cases hflag : (s.nodes n).flag with
    | false => exact swap_requesting h hstack hflag
    | true =>
      have hrun := runFrame_swapped hflag
      have hsame := step_sameTree hstack (by rw [hrun]) (by rw [hrun])
      refine hplain hsame.toSameShape hsame.flag (by rw [hrun]) ?_
      intro g hg
      rw [hrun] at hg
      exact absurd hg List.not_mem_nil
  | drain n =>
    have hsame := drain_sameTree hstack
    refine hplain hsame.toSameShape hsame.flag rfl ?_
    intro g hg
    obtain rfl := List.mem_singleton.mp hg
    rw [System.Sound, hsame.flag]
    exact hsound
  | fire n drained =>
    cases drained with
    | nil =>
      have hnodes := snapshot_nodes hstack
      have hshape : SameShape s (s.step th) :=
        sameShape_edit (step_workers hstack).2 hnodes (fun _ => rfl) fun _ => rfl
      refine hplain hshape ?_ rfl ?_
      · intro m
        rw [hnodes]
        exact edit_field s n m _ Node.flag fun _ => rfl
      · intro g hg
        obtain rfl := List.mem_singleton.mp hg
        intro c hc
        have hparent := hp.parents n c (List.mem_filter.mp hc).1
        exact sameShape_requested hshape (hrequested rfl)
          (requested_child hp (h.flagged n hsound) hparent)
    | cons entry drained =>
      have hsame := step_sameTree hstack rfl rfl
      refine hplain hsame.toSameShape hsame.flag rfl ?_
      intro g hg
      obtain rfl := List.mem_singleton.mp hg
      rw [System.Sound, hsame.flag]
      exact hsound
  | walk n children =>
    cases children with
    | nil =>
      have hsame := step_sameTree hstack rfl rfl
      exact hplain hsame.toSameShape hsame.flag rfl fun g hg => absurd hg List.not_mem_nil
    | cons first children =>
      have hsame := step_sameTree hstack rfl rfl
      refine hplain hsame.toSameShape hsame.flag rfl ?_
      intro g hg
      rcases List.mem_cons.mp hg with rfl | hg
      · exact sameShape_requested hsame.toSameShape (hrequested rfl)
          (hsound first List.mem_cons_self)
      · obtain rfl := List.mem_singleton.mp hg
        intro c hc
        exact sameShape_requested hsame.toSameShape (hrequested rfl)
          (hsound c (List.mem_cons_of_mem _ hc))
  | fireAtOnce n key slot =>
    have hsame := step_sameTree hstack rfl rfl
    exact hplain hsame.toSameShape hsame.flag rfl fun g hg => absurd hg List.not_mem_nil
  | wake n waker =>
    have hsame := step_sameTree hstack rfl rfl
    exact hplain hsame.toSameShape hsame.flag rfl fun g hg => absurd hg List.not_mem_nil

theorem cancel_requesting (hp : Propagating s) (h : Requesting s) {n : ℕ}
    (he : Enabled s (.cancel th n)) : Requesting (next s (.cancel th n)) := by
  obtain ⟨-, -, hlive⟩ := he
  have hmono : ∀ m, s.Requested m → (next s (.cancel th n)).Requested m := by
    intro m hm
    refine requested_mono (s := s) (t := next s (.cancel th n)) (Nat.le_refl _) ?_ ?_ hm
    · intro a ha
      exact List.mem_cons_of_mem n ha
    · intro p c hc
      exact hc
  refine requesting_after h hmono (fun m => id) (fun m => .inl) ?_
  intro g hg
  rcases runs_begin.mp hg with rfl | hold
  · exact .inr ⟨live_below hp hlive, n, List.mem_cons_self, .refl⟩
  · exact .inl hold

theorem step_treeKept (hp : Propagating s) (h : Requesting s) {e : Event W F}
    (hstep : Step s e t) : Propagating t ∧ Requesting t := by
  obtain ⟨he, rfl⟩ := hstep
  cases e with
  | root =>
    have hg := root_grown s
    exact ⟨grown_propagating hp hg, grown_requesting hp h hg rfl fun _ => rfl⟩
  | child p =>
    have hg := child_grown hp he
    exact ⟨grown_propagating hp hg, grown_requesting hp h hg rfl (by simp [System.bornUnder])⟩
  | cancel th n =>
    refine ⟨begun_propagating hp (sameTree_of_nodes rfl rfl) ?_, cancel_requesting hp h he⟩
    exact fun g hg => runs_begin.mpr (.inr hg)
  | register th n slot =>
    have hsame := register_sameTree s th n slot
    refine ⟨begun_propagating hp hsame fun g => runs_register s th n slot, ?_⟩
    refine sameShape_requesting h hsame.toSameShape hsame.flag ?_ ?_
    · rw [next, System.register]
      split <;> rfl
    · intro g hg
      rcases register_runs s th n slot hg with rfl | hold
      · exact .inr trivial
      · exact .inl hold
  | refreshTask th n id waker =>
    have hsame := refreshTask_sameTree s th n id waker
    refine ⟨begun_propagating hp hsame fun g => runs_refreshTask s th n id waker, ?_⟩
    refine sameShape_requesting h hsame.toSameShape hsame.flag ?_ ?_
    · rw [next, System.refreshTask]
      split <;> rfl
    · intro g hg
      rcases refreshTask_runs s th n id waker hg with rfl | hold
      · exact .inr trivial
      · exact .inl hold
  | unregister n id =>
    have hsame : SameTree s (s.unregister n id) := sameTree_wakers (n := n) rfl rfl
    exact ⟨begun_propagating hp hsame fun _ hg => hg, sameShape_requesting h hsame.toSameShape
      hsame.flag rfl fun _ => .inl⟩
  | drop n =>
    refine ⟨drop_propagating hp he, ?_⟩
    have hflag : ∀ m, ((next s (.drop n : Event W F)).nodes m).flag = (s.nodes m).flag :=
      fun m => edit_field s n m (fun node => { node with live := false }) Node.flag fun _ => rfl
    have hparent : ∀ m, ((next s (.drop n : Event W F)).nodes m).parent = (s.nodes m).parent :=
      fun m => edit_field s n m (fun node => { node with live := false }) Node.parent fun _ => rfl
    refine requesting_after h ?_ ?_ ?_ fun _ => .inl
    · intro m hm
      refine requested_mono (s := s) (t := next s (.drop n)) (Nat.le_refl _) (fun a ha => ha) ?_ hm
      intro p c hc
      rw [System.ParentOf, hparent]
      exact hc
    · intro m hm
      rw [hflag]
      exact hm
    · intro m hm
      rw [hflag] at hm
      exact .inl hm
  | step th => exact ⟨step_propagating hp h he, step_requesting hp h he⟩

theorem reachable_treeKept (h : Reachable s) : Propagating s ∧ Requesting s := by
  induction h with
  | initial workers =>
    refine ⟨initial_propagating workers, ?_, ?_⟩
    · intro n hn
      exact absurd hn Bool.false_ne_true
    · rintro frame ⟨th, hmem⟩
      exact absurd hmem List.not_mem_nil
  | step _ hstep ih => exact step_treeKept ih.1 ih.2 hstep

theorem owed_running {p c : ℕ} (h : s.Owed p c) : ∃ frame, s.Runs frame ∧ frame.ofCancel = true := by
  obtain ⟨frame, hruns, howes⟩ := h
  refine ⟨frame, hruns, ?_⟩
  cases frame with
  | swap n => rfl
  | drain n => rfl
  | fire n drained => rfl
  | walk n children => rfl
  | fireAtOnce n key slot => exact absurd howes id
  | wake n waker => exact absurd howes id

/-- With no call in progress nothing is owed, so the flags reach down every path of live nodes. -/
theorem quiet_reaches (h : Propagating s) (hquiet : s.Quiet) {a d : ℕ}
    (ha : (s.nodes a).flag = true) (hpath : s.Descends a d) (hd : (s.nodes d).live = true) :
    (s.nodes d).flag = true := by
  induction hpath with
  | refl => exact ha
  | tail _ hc ih =>
    rcases h.passed _ _ hc hd (ih (h.held _ _ hc hd)) with hset | howed
    · exact hset
    · obtain ⟨frame, hruns, hcancel⟩ := owed_running howed
      rw [hquiet frame hruns] at hcancel
      exact absurd hcancel Bool.false_ne_true

end CancelTree

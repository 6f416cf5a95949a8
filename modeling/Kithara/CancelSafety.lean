import Mathlib.Algebra.Order.BigOperators.Group.Finset
import Kithara.CancelWakers

/-! What callers of the cancel tree rely on, in every run, and that the calls under way end. -/
namespace CancelTree

variable {W F : Type} {s t : System W F} {th : ℕ} {frame g : Frame W F}
  {rest : List (Frame W F)}

def System.Answered (s : System W F) : Prop :=
  ∀ a ∈ s.requested, (s.nodes a).flag = true ∨ s.Runs (.swap a)

theorem answered_kept (h : s.Answered) (hrequested : t.requested = s.requested)
    (hflag : ∀ a ∈ s.requested, (s.nodes a).flag = true → (t.nodes a).flag = true)
    (hruns : ∀ a, s.Runs (.swap a) → (t.nodes a).flag = true ∨ t.Runs (.swap a)) : t.Answered := by
  intro a ha
  rw [hrequested] at ha
  rcases h a ha with hset | hwaits
  · exact .inl (hflag a ha hset)
  · exact hruns a hwaits

theorem setWakers_flag (s : System W F) (n m : ℕ) (w : WakerSlots W F) :
    ((s.setWakers n w).nodes m).flag = (s.nodes m).flag :=
  edit_field s n m (fun node => { node with wakers := w }) Node.flag fun _ => rfl

theorem step_flag (h : s.threads th = frame :: rest) {n : ℕ} (hn : (s.nodes n).flag = true) :
    ((s.step th).nodes n).flag = true := by
  rw [step_nodes h]
  cases frame with
  | swap m =>
    rw [System.runFrame]
    split
    · exact hn
    · by_cases hnm : n = m
      · rw [hnm]
        exact congrArg Node.flag (edit_self s m fun node => { node with flag := true })
      · rw [edit_other s _ hnm]
        exact hn
  | drain m => exact (setWakers_flag s m n _).trans hn
  | fire m drained =>
    cases drained with
    | nil => exact (edit_field s m n (fun node => { node with children := [] }) Node.flag
        fun _ => rfl).trans hn
    | cons entry drained => exact hn
  | walk m children => cases children <;> exact hn
  | fireAtOnce m key slot => exact hn
  | wake m waker => exact hn

theorem step_requested (h : s.threads th = frame :: rest) :
    (s.step th).requested = s.requested := by
  rw [step_eq h]
  cases frame with
  | swap n =>
    rw [System.runFrame]
    split <;> rfl
  | drain n => rfl
  | fire n drained => cases drained <;> rfl
  | walk n children => cases children <;> rfl
  | fireAtOnce n key slot => rfl
  | wake n waker => rfl

theorem swap_sets {a : ℕ} (h : s.threads th = .swap a :: rest) :
    ((s.step th).nodes a).flag = true := by
  cases hset : (s.nodes a).flag with
  | true => exact step_flag h hset
  | false =>
    rw [step_nodes h, System.runFrame, hset]
    exact congrArg Node.flag (edit_self s a fun node => { node with flag := true })

theorem step_swapped (h : s.threads th = frame :: rest) {a : ℕ} (ha : s.Runs (.swap a)) :
    ((s.step th).nodes a).flag = true ∨ (s.step th).Runs (.swap a) := by
  rcases runs_kept h ha with rfl | hkept
  · exact .inl (swap_sets h)
  · exact .inr hkept

theorem grown_answered {node : Node W F} (h : s.Answered) (hr : Requesting s)
    (hg : Grown s t node) (hrequested : t.requested = s.requested) : t.Answered := by
  refine answered_kept h hrequested ?_ fun a ha => .inr (hg.runs.mpr ha)
  intro a _ hset
  rw [hg.flag a (Nat.ne_of_lt (hr.flagged a hset).1)]
  exact hset

theorem step_answered (hp : Propagating s) (hr : Requesting s) (h : s.Answered) {e : Event W F}
    (hstep : Step s e t) : t.Answered := by
  obtain ⟨he, rfl⟩ := hstep
  cases e with
  | root => exact grown_answered h hr (root_grown s) rfl
  | child p => exact grown_answered h hr (child_grown hp he) rfl
  | cancel th n =>
    intro a ha
    rcases List.mem_cons.mp ha with rfl | hold
    · exact .inr (runs_begin.mpr (.inl rfl))
    · exact (h a hold).imp (fun hset => hset) fun hruns => runs_begin.mpr (.inr hruns)
  | register th n slot =>
    refine answered_kept h ?_ (fun a _ hset => ?_) fun a ha => .inr (runs_register s th n slot ha)
    · rw [next, System.register]
      split <;> rfl
    · exact ((register_sameTree s th n slot).flag a).trans hset
  | refreshTask th n id waker =>
    refine answered_kept h ?_ (fun a _ hset => ?_)
      fun a ha => .inr (runs_refreshTask s th n id waker ha)
    · rw [next, System.refreshTask]
      split <;> rfl
    · exact ((refreshTask_sameTree s th n id waker).flag a).trans hset
  | unregister n id =>
    refine answered_kept h rfl (fun a _ hset => ?_) fun a ha => .inr ha
    exact (setWakers_flag s n a _).trans hset
  | drop n =>
    refine answered_kept h rfl (fun a _ hset => ?_) fun a ha => .inr ha
    exact (edit_field s n a (fun node => { node with live := false }) Node.flag
      fun _ => rfl).trans hset
  | step th =>
    obtain ⟨frame, rest, hstack⟩ := step_running he
    exact answered_kept h (step_requested hstack) (fun a _ => step_flag hstack)
      fun a => step_swapped hstack

theorem reachable_answered (h : Reachable s) : s.Answered := by
  induction h with
  | initial workers => exact fun a ha => absurd ha List.not_mem_nil
  | step hs hstep ih =>
    obtain ⟨hp, hr⟩ := reachable_treeKept hs
    exact step_answered hp hr ih hstep

/-- The steps that are left of a call standing at the frame, when all nodes it comes to are
flagged already. -/
def System.weigh (s : System W F) : Frame W F → ℕ
  | .swap _ => 1
  | .drain n =>
    3 + (s.nodes n).wakers.slots.length + 2 * (s.nodes n).children.length
  | .fire n drained => 2 + drained.length + 2 * (s.nodes n).children.length
  | .walk _ children => 1 + 2 * children.length
  | .fireAtOnce _ _ _ => 1
  | .wake _ _ => 1

def System.loadOf (s : System W F) : List (Frame W F) → ℕ
  | [] => 0
  | frame :: rest => s.weigh frame + s.loadOf rest

def System.load (s : System W F) : ℕ :=
  ∑ th ∈ Finset.range s.workers, s.loadOf (s.threads th)

def System.unflagged (s : System W F) : Finset ℕ :=
  (Finset.range s.count).filter fun n => (s.nodes n).flag = false

theorem loadOf_append (s : System W F) (xs ys : List (Frame W F)) :
    s.loadOf (xs ++ ys) = s.loadOf xs + s.loadOf ys := by
  induction xs with
  | nil => exact (Nat.zero_add _).symm
  | cons frame xs ih =>
    rw [List.cons_append, System.loadOf, System.loadOf, ih]
    omega

theorem weigh_le (hslots : ∀ n, (t.nodes n).wakers.slots.length ≤ (s.nodes n).wakers.slots.length)
    (hchildren : ∀ n, (t.nodes n).children.length ≤ (s.nodes n).children.length)
    (frame : Frame W F) : t.weigh frame ≤ s.weigh frame := by
  cases frame with
  | drain n =>
    have hn := hslots n
    have hc := hchildren n
    simp only [System.weigh]
    omega
  | fire n drained =>
    have hc := hchildren n
    simp only [System.weigh]
    omega
  | swap n => exact Nat.le_refl _
  | walk n children => exact Nat.le_refl _
  | fireAtOnce n key slot => exact Nat.le_refl _
  | wake n waker => exact Nat.le_refl _

theorem loadOf_le (h : ∀ frame : Frame W F, t.weigh frame ≤ s.weigh frame)
    (stack : List (Frame W F)) : t.loadOf stack ≤ s.loadOf stack := by
  induction stack with
  | nil => exact Nat.le_refl _
  | cons frame rest ih => exact Nat.add_le_add (h frame) ih

/-- No registry and no list of children grows while calls only go on. -/
theorem step_shrinks (h : s.threads th = frame :: rest) (n : ℕ) :
    ((s.step th).nodes n).wakers.slots.length ≤ (s.nodes n).wakers.slots.length ∧
      ((s.step th).nodes n).children.length ≤ (s.nodes n).children.length := by
  have hedit : ∀ (m : ℕ) (f : Node W F → Node W F),
      ((f (s.nodes m)).wakers.slots.length ≤ (s.nodes m).wakers.slots.length ∧
        (f (s.nodes m)).children.length ≤ (s.nodes m).children.length) →
      ((s.edit m f).nodes n).wakers.slots.length ≤ (s.nodes n).wakers.slots.length ∧
        ((s.edit m f).nodes n).children.length ≤ (s.nodes n).children.length := by
    intro m f hf
    by_cases hn : n = m
    · rw [hn, edit_self]
      exact hf
    · rw [edit_other s f hn]
      exact ⟨Nat.le_refl _, Nat.le_refl _⟩
  rw [step_nodes h]
  cases frame with
  | swap m =>
    rw [System.runFrame]
    split
    · exact ⟨Nat.le_refl _, Nat.le_refl _⟩
    · exact hedit m (fun node => { node with flag := true }) ⟨Nat.le_refl _, Nat.le_refl _⟩
  | drain m =>
    exact hedit m (fun node => { node with wakers := (s.nodes m).wakers.drain.1 })
      ⟨Nat.zero_le _, Nat.le_refl _⟩
  | fire m drained =>
    cases drained with
    | nil =>
      exact hedit m (fun node => { node with children := [] }) ⟨Nat.le_refl _, Nat.zero_le _⟩
    | cons entry drained => exact ⟨Nat.le_refl _, Nat.le_refl _⟩
  | walk m children => cases children <;> exact ⟨Nat.le_refl _, Nat.le_refl _⟩
  | fireAtOnce m key slot => exact ⟨Nat.le_refl _, Nat.le_refl _⟩
  | wake m waker => exact ⟨Nat.le_refl _, Nat.le_refl _⟩

theorem frame_lighter (h : s.threads th = frame :: rest)
    (hframe : ∀ n, frame = .swap n → (s.nodes n).flag = true) :
    (s.step th).loadOf (s.runFrame frame).2 < s.weigh frame := by
  cases frame with
  | swap n =>
    rw [System.runFrame, if_pos (hframe n rfl)]
    exact Nat.zero_lt_one
  | drain n =>
    have hchildren := (step_shrinks h n).2
    simp only [System.runFrame, System.loadOf, System.weigh, WakerSlots.drain, List.length_map]
    omega
  | fire n drained =>
    have hchildren := (step_shrinks h n).2
    cases drained with
    | nil =>
      have hlive := List.length_filter_le (fun c => (s.nodes c).live) (s.nodes n).children
      simp only [System.runFrame, System.loadOf, System.weigh, System.liveChildren,
        List.length_nil]
      omega
    | cons entry drained =>
      obtain ⟨key, slot⟩ := entry
      simp only [System.runFrame, System.loadOf, System.weigh, List.length_cons]
      omega
  | walk n children =>
    cases children with
    | nil => exact Nat.zero_lt_one
    | cons first children =>
      simp only [System.runFrame, System.loadOf, System.weigh, List.length_cons]
      omega
  | fireAtOnce n key slot => exact Nat.zero_lt_one
  | wake n waker => exact Nat.zero_lt_one

theorem load_lighter (he : Enabled s (.step th)) (h : s.threads th = frame :: rest)
    (hframe : ∀ n, frame = .swap n → (s.nodes n).flag = true) : (s.step th).load < s.load := by
  have hweigh : ∀ g : Frame W F, (s.step th).weigh g ≤ s.weigh g :=
    weigh_le (fun n => (step_shrinks h n).1) fun n => (step_shrinks h n).2
  rw [System.load, (step_workers h).1]
  apply Finset.sum_lt_sum
  · intro other _
    by_cases hth : other = th
    · rw [hth, step_stack h, h, loadOf_append, System.loadOf]
      have hlight := frame_lighter h hframe
      have hrest := loadOf_le hweigh rest
      omega
    · rw [step_otherStack h hth]
      exact loadOf_le hweigh _
  · refine ⟨th, Finset.mem_range.mpr he.1, ?_⟩
    rw [step_stack h, h, loadOf_append, System.loadOf]
    have hlight := frame_lighter h hframe
    have hrest := loadOf_le hweigh rest
    omega

theorem unflagged_sub (h : s.threads th = frame :: rest) :
    (s.step th).unflagged ⊆ s.unflagged := by
  intro n hn
  rw [System.unflagged, Finset.mem_filter, (step_workers h).2] at hn
  rw [System.unflagged, Finset.mem_filter]
  refine ⟨hn.1, ?_⟩
  by_contra hset
  have hkept := step_flag h (Bool.eq_true_of_not_eq_false hset)
  rw [hn.2] at hkept
  exact Bool.false_ne_true hkept

/-- Whichever thread goes on, fewer nodes are unflagged or less is left to do. -/
theorem step_shorter (hr : Requesting s) (he : Enabled s (.step th)) :
    Prod.Lex (· < ·) (· < ·) ((s.step th).unflagged.card, (s.step th).load)
      (s.unflagged.card, s.load) := by
  obtain ⟨frame, rest, hstack⟩ := step_running he
  by_cases hframe : ∀ n, frame = .swap n → (s.nodes n).flag = true
  · have hless := load_lighter he hstack hframe
    rcases Nat.lt_or_eq_of_le (Finset.card_le_card (unflagged_sub hstack)) with hlt | heq
    · exact .left _ _ hlt
    · rw [heq]
      exact .right _ hless
  · push Not at hframe
    obtain ⟨n, rfl, hunset⟩ := hframe
    have hbelow := (hr.sound (.swap n) ⟨th, by rw [hstack]; exact List.mem_cons_self⟩).1
    refine .left _ _ (Finset.card_lt_card ((Finset.ssubset_iff_of_subset
      (unflagged_sub hstack)).mpr ⟨n, ?_, ?_⟩))
    · exact Finset.mem_filter.mpr ⟨Finset.mem_range.mpr hbelow, Bool.eq_false_of_not_eq_true hunset⟩
    · intro hn
      have hclear := (Finset.mem_filter.mp hn).2
      rw [swap_sets hstack] at hclear
      exact Bool.false_ne_true hclear.symm

theorem reachable_workers (h : Reachable s) : ∀ th, s.workers ≤ th → s.threads th = [] := by
  induction h with
  | initial workers => exact fun th _ => rfl
  | @step s e t hs hstep ih =>
    obtain ⟨he, rfl⟩ := hstep
    have hbegin : ∀ (u : System W F) (th : ℕ) (frame : Frame W F), th < u.workers →
        (∀ other, u.workers ≤ other → u.threads other = []) →
        ∀ other, u.workers ≤ other → (u.begin th frame).threads other = [] := by
      intro u th frame hth hu other hother
      rw [begin_other u frame (by omega)]
      exact hu other hother
    cases e with
    | root => exact ih
    | child p => exact ih
    | cancel th n => exact hbegin s th _ he.1 ih
    | register th n slot =>
      intro other
      rw [next, System.register]
      split
      · exact ih other
      · exact hbegin _ th _ he.1 ih other
    | refreshTask th n id waker =>
      intro other
      rw [next, System.refreshTask]
      split
      · exact ih other
      · exact hbegin _ th _ he.1 ih other
    | unregister n id => exact ih
    | drop n => exact ih
    | step th =>
      intro other hother
      obtain ⟨frame, rest, hstack⟩ := step_running he
      rw [next, (step_workers hstack).1] at hother
      have hth := he.1
      rw [next, step_otherStack hstack (by omega)]
      exact ih other hother

/-- The calls under way go on, and nothing else happens. -/
def System.Finishes (s t : System W F) : Prop :=
  Relation.ReflTransGen (fun s t => ∃ th, Step s (.step th) t) s t

theorem calls_end (h : Reachable s) :
    ∃ t, s.Finishes t ∧ Reachable t ∧ ∀ th, t.threads th = [] := by
  have hwf : WellFounded (Prod.Lex (fun a b : ℕ => a < b) fun a b : ℕ => a < b) :=
    WellFounded.prod_lex Nat.lt_wfRel.wf Nat.lt_wfRel.wf
  generalize hm : (s.unflagged.card, s.load) = m
  induction m using hwf.induction generalizing s with
  | _ m ih =>
    by_cases hidle : ∀ th, s.threads th = []
    · exact ⟨s, .refl, h, hidle⟩
    · push Not at hidle
      obtain ⟨th, hth⟩ := hidle
      have he : Enabled s (.step th) := by
        refine ⟨?_, hth⟩
        by_contra hge
        exact hth (reachable_workers h th (by omega))
      have hstep : Step s (.step th) (s.step th) := ⟨he, rfl⟩
      have hshort := step_shorter (reachable_treeKept h).2 he
      rw [hm] at hshort
      obtain ⟨t, hfinish, ht, hquiet⟩ := ih _ hshort (h.step hstep) rfl
      exact ⟨t, hfinish.head ⟨th, hstep⟩, ht, hquiet⟩

theorem log_once {place : ℕ → Place} (h : Placed s place) {key : ℕ} {slot : Slot W F}
    (hmem : (key, slot) ∈ s.log) : s.log.filter (fun entry => entry.1 == key) = [(key, slot)] := by
  have hkeys := h.logKeys
  obtain ⟨before, after, heq⟩ := List.append_of_mem hmem
  rw [heq, List.map_append, List.map_cons, List.nodup_append, List.nodup_cons] at hkeys
  obtain ⟨-, ⟨hafter, -⟩, hbefore⟩ := hkeys
  rw [heq, List.filter_append, List.filter_cons_of_pos (by exact beq_self_eq_true key),
    List.filter_eq_nil_iff.mpr, List.filter_eq_nil_iff.mpr, List.nil_append]
  · intro entry hentry hkey
    exact hafter (List.mem_map.mpr ⟨entry, hentry, beq_iff_eq.mp hkey⟩)
  · intro entry hentry hkey
    exact hbefore entry.1 (List.mem_map_of_mem hentry) key List.mem_cons_self (beq_iff_eq.mp hkey)

theorem fired_slot {place : ℕ → Place} (h : Placed s place) {key : ℕ} {slot : Slot W F}
    {r : Registration W F} (hmem : (key, slot) ∈ s.log) (hr : s.registrations[key]? = some r) :
    r.slot = slot ∧ r.withdrawn = false ∧ (s.nodes r.node).wakers.fired = true := by
  obtain ⟨-, n, id, hr', hn⟩ := h.logAt (key, slot) hmem
  rw [hr] at hr'
  obtain rfl := Option.some.inj hr'
  exact ⟨rfl, rfl, hn⟩

/-- Once no call is under way on it, the slot of a cancelled node has fired, as last refreshed. -/
theorem slot_fired {place : ℕ → Place} (h : Placed s place) (hd : Draining s) {key : ℕ}
    {r : Registration W F} (hr : s.registrations[key]? = some r)
    (hflag : (s.nodes r.node).flag = true) (hkept : r.withdrawn = false) (hquiet : s.Quiet)
    (hlate : ∀ n slot, ¬s.Runs (.fireAtOnce n key slot)) : (key, r.slot) ∈ s.log := by
  have hfound := h.found key r hr
  cases hplace : place key with
  | parked =>
    rw [hplace] at hfound
    obtain ⟨p, hp, -⟩ := hfound
    cases hfired : (s.nodes r.node).wakers.fired with
    | true =>
      rw [(hd.fired r.node hfired).2] at hp
      exact absurd hp List.not_mem_nil
    | false =>
      have hdrain := hquiet _ (hd.waiting r.node hflag hfired)
      exact absurd hdrain.symm Bool.false_ne_true
  | withdrawn =>
    rw [hplace] at hfound
    exact absurd (hkept.symm.trans hfound) Bool.false_ne_true
  | pending th =>
    rw [hplace] at hfound
    obtain ⟨slot, hmem⟩ := hfound
    obtain ⟨frame, hframe, hin⟩ := List.mem_flatMap.mp hmem
    have hcancel := hquiet frame ⟨th, hframe⟩
    cases frame with
    | swap n => exact absurd hin List.not_mem_nil
    | drain n => exact absurd hin List.not_mem_nil
    | fire n drained => exact absurd hcancel.symm Bool.false_ne_true
    | walk n children => exact absurd hin List.not_mem_nil
    | fireAtOnce n key' slot' =>
      obtain ⟨rfl, rfl⟩ := Prod.mk.inj (List.mem_singleton.mp hin)
      exact absurd ⟨th, hframe⟩ (hlate n slot)
    | wake n waker => exact absurd hin List.not_mem_nil
  | fired =>
    rw [hplace] at hfound
    obtain ⟨slot, hmem⟩ := hfound
    rw [(fired_slot h hmem hr).1]
    exact hmem

theorem step_log {place : ℕ → Place} (h : Placed s place) {e : Event W F} (hstep : Step s e t)
    {entry : ℕ × Slot W F} (hmem : entry ∈ t.log) : entry ∈ s.log ∨ s.Due entry := by
  obtain ⟨he, rfl⟩ := hstep
  cases e with
  | root => exact .inl hmem
  | child p => exact .inl hmem
  | cancel th n => exact .inl hmem
  | register th n slot =>
    rw [next, System.register] at hmem
    split at hmem
    · exact .inl hmem
    · exact .inl hmem
  | refreshTask th n id waker =>
    rw [next, (refreshTask_record s th n id waker).2.1] at hmem
    exact .inl hmem
  | unregister n id => exact .inl hmem
  | drop n => exact .inl hmem
  | step th =>
    obtain ⟨frame, rest, hstack⟩ := step_running he
    have hpending : ∀ entry ∈ frame.pending, s.Due entry := by
      intro entry hin
      refine (h.pendingAt th entry ?_).2
      rw [pending_stack hstack]
      exact List.mem_append_left _ hin
    rw [next, step_eq hstack] at hmem
    change entry ∈ (s.runFrame frame).1.log at hmem
    cases frame with
    | swap n =>
      rw [System.runFrame] at hmem
      split at hmem
      · exact .inl hmem
      · exact .inl hmem
    | drain n => exact .inl hmem
    | fire n drained =>
      cases drained with
      | nil => exact .inl hmem
      | cons first drained =>
        rcases List.mem_append.mp hmem with hold | hnew
        · exact .inl hold
        · refine .inr (hpending entry ?_)
          rw [List.mem_singleton.mp hnew]
          exact List.mem_cons_self
    | walk n children => cases children <;> exact .inl hmem
    | fireAtOnce n key slot =>
      rcases List.mem_append.mp hmem with hold | hnew
      · exact .inl hold
      · exact .inr (hpending entry hnew)
    | wake n waker => exact .inl hmem

theorem register_answer {place : ℕ → Place} (h : Placed s place) (hd : Draining s) (th n : ℕ)
    (slot : Slot W F) :
    ∃ id, (s.register th n slot).registrations = s.registrations ++ [⟨n, id, slot, false⟩] ∧
      ∀ i, id = some i ↔
        ⟨i, s.registrations.length, slot⟩ ∈ ((s.register th n slot).nodes n).wakers.slots := by
  cases hfired : (s.nodes n).wakers.fired with
  | false =>
    rw [register_parked s th n slot hfired]
    refine ⟨some (s.nodes n).wakers.nextId, rfl, ?_⟩
    intro i
    change _ ↔ _ ∈ ((System.setWakers s n _).nodes n).wakers.slots
    rw [setWakers_self, WakerSlots.park, List.mem_append, List.mem_singleton]
    constructor
    · intro hi
      exact .inr (by rw [Option.some.inj hi])
    · rintro (hold | hnew)
      · have hlt := (List.getElem?_eq_some_iff.mp (h.slotAt n _ hold).2).1
        exact absurd hlt (Nat.lt_irrefl _)
      · rw [(Parked.mk.inj hnew).1]
  | true =>
    rw [register_fired s th n slot hfired]
    refine ⟨none, rfl, ?_⟩
    intro i
    constructor
    · intro hi
      cases hi
    · intro hmem
      have hempty := (congrArg WakerSlots.slots (setWakers_same s n n)).trans
        (hd.fired n hfired).2
      change _ ∈ ((System.setWakers s n _).nodes n).wakers.slots at hmem
      rw [hempty] at hmem
      exact absurd hmem List.not_mem_nil

/-- In every reachable state: with no call of `cancel` in progress the live nodes under a
cancelled one are cancelled, and only those under a requested one ever are; every slot fires at
most once, after the flag and never once withdrawn, exactly once when the calls are over, and
they can always be run to their end; and a registration has an id exactly while it is parked. -/
theorem cancel_tree_safe (h : Reachable s) :
    (s.Quiet → ∀ a d, (a ∈ s.requested ∨ (s.nodes a).flag = true) → s.Descends a d →
      (s.nodes d).live = true → (s.nodes d).flag = true) ∧
    (∀ n, (s.nodes n).flag = true → ∃ a ∈ s.requested, s.Descends a n) ∧
    (∀ key r, s.registrations[key]? = some r → (s.nodes r.node).flag = true →
      r.withdrawn = false → s.Quiet → (∀ n slot, ¬s.Runs (.fireAtOnce n key slot)) →
      s.log.filter (fun entry => entry.1 == key) = [(key, r.slot)]) ∧
    (∀ key slot, (key, slot) ∈ s.log →
      s.log.filter (fun entry => entry.1 == key) = [(key, slot)]) ∧
    (∀ key r, s.registrations[key]? = some r → r.withdrawn = true →
      ∀ slot, (key, slot) ∉ s.log) ∧
    (∀ e t, Step s e t → ∀ key slot, (key, slot) ∈ t.log → (key, slot) ∈ s.log ∨
      ∃ r, s.registrations[key]? = some r ∧ r.slot = slot ∧ r.withdrawn = false ∧
        (s.nodes r.node).flag = true) ∧
    (∀ th n slot t, Step s (.register th n slot) t →
      ∃ id, t.registrations = s.registrations ++ [⟨n, id, slot, false⟩] ∧
        ∀ i, id = some i ↔ ⟨i, s.registrations.length, slot⟩ ∈ (t.nodes n).wakers.slots) ∧
    ∃ t, s.Finishes t ∧ Reachable t ∧ ∀ th, t.threads th = [] := by
  obtain ⟨hp, hr⟩ := reachable_treeKept h
  obtain ⟨⟨place, hplaced⟩, hd⟩ := reachable_slotsKept h
  refine ⟨?_, fun n hn => (hr.flagged n hn).2, ?_, fun key slot => log_once hplaced, ?_, ?_, ?_,
    calls_end h⟩
  · intro hquiet a d ha hpath hlive
    refine quiet_reaches hp hquiet ?_ hpath hlive
    rcases ha with hrequested | hset
    · rcases reachable_answered h a hrequested with hset | hswap
      · exact hset
      · exact absurd (hquiet _ hswap).symm Bool.false_ne_true
    · exact hset
  · intro key r hkey hflag hkept hquiet hlate
    exact log_once hplaced (slot_fired hplaced hd hkey hflag hkept hquiet hlate)
  · intro key r hkey hwithdrawn slot hmem
    have hkept := (fired_slot hplaced hmem hkey).2.1
    rw [hwithdrawn] at hkept
    exact Bool.false_ne_true hkept.symm
  · intro e t hstep key slot hmem
    rcases step_log hplaced hstep hmem with hold | ⟨n, id, hkey, hfired⟩
    · exact .inl hold
    · exact .inr ⟨_, hkey, rfl, rfl, (hd.fired n hfired).1⟩
  · rintro th n slot t ⟨-, rfl⟩
    exact register_answer hplaced hd th n slot

/-- A slot of a child fires while its parent is cancelled by another thread. -/
def cancelledChild : List (Event Unit Unit) :=
  [.root, .child 0, .register 1 1 (.task ()), .cancel 0 0, .refreshTask 1 1 0 (),
    .step 0, .step 0, .step 0, .step 0, .step 0, .step 0, .step 0, .step 0, .step 0, .step 0]

theorem cancel_tree_safe_child :
    ((run (initial 2) cancelledChild).nodes 1).flag = true ∧
      (run (initial 2) cancelledChild).log.filter (fun entry => entry.1 == 0) =
        [(0, .task ())] := by
  have hreach : Reachable (run (initial 2) cancelledChild) :=
    reachable_run (.initial 2) (by simp only [cancelledChild, Allowed]; decide)
  have hidle : ∀ th, (run (initial 2) cancelledChild).threads th = [] := by
    intro th
    match th with
    | 0 => rfl
    | 1 => rfl
    | th + 2 => exact reachable_workers hreach (th + 2) (Nat.le_add_left 2 th)
  have hquiet : (run (initial 2) cancelledChild).Quiet := by
    rintro frame ⟨th, hmem⟩
    rw [hidle th] at hmem
    exact absurd hmem List.not_mem_nil
  obtain ⟨hdown, -, honce, -⟩ := cancel_tree_safe hreach
  have hflag := hdown hquiet 0 1 (.inl (by decide)) (.single rfl) rfl
  refine ⟨hflag, honce 0 ⟨1, some 0, .task (), false⟩ rfl hflag rfl hquiet ?_⟩
  rintro n slot ⟨th, hmem⟩
  rw [hidle th] at hmem
  exact absurd hmem List.not_mem_nil

end CancelTree

import Mathlib.Data.List.Nodup
import Kithara.CancelPropagation

/-! The slots of the cancel tree. Each registration's slot is at one place at a time: parked in
its registry, withdrawn, with the thread that is going to fire it, or fired. -/
namespace CancelTree

variable {W F : Type} {s t : System W F} {th : ℕ} {frame g : Frame W F}
  {rest : List (Frame W F)}

def Frame.pending : Frame W F → List (ℕ × Slot W F)
  | .swap _ => []
  | .drain _ => []
  | .fire _ drained => drained
  | .walk _ _ => []
  | .fireAtOnce _ key slot => [(key, slot)]
  | .wake _ _ => []

def System.pending (s : System W F) (th : ℕ) : List (ℕ × Slot W F) :=
  (s.threads th).flatMap Frame.pending

inductive Place where
  | parked
  | withdrawn
  | pending (thread : ℕ)
  | fired
  deriving DecidableEq, Repr

/-- The entry is its registration's slot as last refreshed, and the drain has been. -/
def System.Due (s : System W F) (entry : ℕ × Slot W F) : Prop :=
  ∃ n id, s.registrations[entry.1]? = some ⟨n, id, entry.2, false⟩ ∧
    (s.nodes n).wakers.fired = true

def System.FoundAt (s : System W F) (key : ℕ) (r : Registration W F) : Place → Prop
  | .parked => ∃ p ∈ (s.nodes r.node).wakers.slots, p.key = key
  | .withdrawn => r.withdrawn = true
  | .pending th => ∃ slot, (key, slot) ∈ s.pending th
  | .fired => ∃ slot, (key, slot) ∈ s.log

structure Placed (s : System W F) (place : ℕ → Place) : Prop where
  slotIds : ∀ n, ((s.nodes n).wakers.slots.map Parked.id).Nodup
  slotBelow : ∀ n, ∀ p ∈ (s.nodes n).wakers.slots, p.id < (s.nodes n).wakers.nextId
  slotAt : ∀ n, ∀ p ∈ (s.nodes n).wakers.slots, place p.key = .parked ∧
    s.registrations[p.key]? = some ⟨n, some p.id, p.slot, false⟩
  pendingKeys : ∀ th, ((s.pending th).map Prod.fst).Nodup
  pendingAt : ∀ th, ∀ entry ∈ s.pending th, place entry.1 = .pending th ∧ s.Due entry
  logKeys : (s.log.map Prod.fst).Nodup
  logAt : ∀ entry ∈ s.log, place entry.1 = .fired ∧ s.Due entry
  found : ∀ key r, s.registrations[key]? = some r → s.FoundAt key r (place key)

structure Draining (s : System W F) : Prop where
  unborn : ∀ n, s.count ≤ n → (s.nodes n).wakers = {}
  fired : ∀ n, (s.nodes n).wakers.fired = true →
    (s.nodes n).flag = true ∧ (s.nodes n).wakers.slots = []
  waiting : ∀ n, (s.nodes n).flag = true → (s.nodes n).wakers.fired = false → s.Runs (.drain n)

theorem pending_begin (s : System W F) (th other : ℕ) (frame : Frame W F)
    (h : frame.pending = []) :
    (s.begin th frame).pending other = s.pending other := by
  by_cases hne : other = th
  · rw [hne, System.pending, begin_self, List.flatMap_cons, h]
    rfl
  · rw [System.pending, begin_other s frame hne]
    rfl

theorem pending_step (h : s.threads th = frame :: rest) :
    (s.step th).pending th = (s.runFrame frame).2.flatMap Frame.pending ++
      rest.flatMap Frame.pending := by
  rw [System.pending, step_stack h, List.flatMap_append]

theorem pending_stack (h : s.threads th = frame :: rest) :
    s.pending th = frame.pending ++ rest.flatMap Frame.pending := by
  rw [System.pending, h, List.flatMap_cons]

theorem pending_other (h : s.threads th = frame :: rest) {other : ℕ} (hne : other ≠ th) :
    (s.step th).pending other = s.pending other := by
  rw [System.pending, step_otherStack h hne]
  rfl

@[simp] theorem setWakers_self (s : System W F) (n : ℕ) (w : WakerSlots W F) :
    ((s.setWakers n w).nodes n).wakers = w := by
  rw [System.setWakers, edit_self]

theorem setWakers_other (s : System W F) {n m : ℕ} (w : WakerSlots W F) (h : m ≠ n) :
    (s.setWakers n w).nodes m = s.nodes m :=
  edit_other s _ h

theorem setWakers_fired (s : System W F) (n m : ℕ) {w : WakerSlots W F}
    (hw : w.fired = (s.nodes n).wakers.fired) :
    ((s.setWakers n w).nodes m).wakers.fired = (s.nodes m).wakers.fired := by
  by_cases hm : m = n
  · rw [hm, setWakers_self, hw]
  · rw [setWakers_other s w hm]

theorem setWakers_same (s : System W F) (n m : ℕ) :
    ((s.setWakers n (s.nodes n).wakers).nodes m).wakers = (s.nodes m).wakers := by
  by_cases hm : m = n
  · rw [hm, setWakers_self]
  · rw [setWakers_other s _ hm]

theorem due_kept (hregistrations : t.registrations = s.registrations)
    (hfired : ∀ n, (s.nodes n).wakers.fired = true → (t.nodes n).wakers.fired = true)
    {entry : ℕ × Slot W F} (h : s.Due entry) : t.Due entry := by
  obtain ⟨n, id, hr, hn⟩ := h
  exact ⟨n, id, by rw [hregistrations]; exact hr, hfired n hn⟩

theorem foundAt_kept {key : ℕ} {r r' : Registration W F} {spot : Place}
    (h : s.FoundAt key r spot)
    (hslots : ∀ p ∈ (s.nodes r.node).wakers.slots, p.key = key →
      ∃ q ∈ (t.nodes r'.node).wakers.slots, q.key = key)
    (hwithdrawn : r.withdrawn = true → r'.withdrawn = true)
    (hpending : ∀ th slot, (key, slot) ∈ s.pending th → (key, slot) ∈ t.pending th)
    (hlog : ∀ slot, (key, slot) ∈ s.log → (key, slot) ∈ t.log) : t.FoundAt key r' spot := by
  cases spot with
  | parked =>
    obtain ⟨p, hp, hkey⟩ := h
    exact hslots p hp hkey
  | withdrawn => exact hwithdrawn h
  | pending th =>
    obtain ⟨slot, hmem⟩ := h
    exact ⟨slot, hpending th slot hmem⟩
  | fired =>
    obtain ⟨slot, hmem⟩ := h
    exact ⟨slot, hlog slot hmem⟩

theorem placed_kept {place : ℕ → Place} (h : Placed s place)
    (hslots : ∀ n, (t.nodes n).wakers.slots = (s.nodes n).wakers.slots)
    (hnextId : ∀ n, (t.nodes n).wakers.nextId = (s.nodes n).wakers.nextId)
    (hfired : ∀ n, (s.nodes n).wakers.fired = true → (t.nodes n).wakers.fired = true)
    (hregistrations : t.registrations = s.registrations) (hlog : t.log = s.log)
    (hpending : ∀ th, t.pending th = s.pending th) : Placed t place := by
  refine ⟨?_, ?_, ?_, ?_, ?_, ?_, ?_, ?_⟩
  · intro n
    rw [hslots]
    exact h.slotIds n
  · intro n p hp
    rw [hslots] at hp
    rw [hnextId]
    exact h.slotBelow n p hp
  · intro n p hp
    rw [hslots] at hp
    rw [hregistrations]
    exact h.slotAt n p hp
  · intro th
    rw [hpending]
    exact h.pendingKeys th
  · intro th entry hentry
    rw [hpending] at hentry
    obtain ⟨hplace, hdue⟩ := h.pendingAt th entry hentry
    exact ⟨hplace, due_kept hregistrations hfired hdue⟩
  · rw [hlog]
    exact h.logKeys
  · intro entry hentry
    rw [hlog] at hentry
    obtain ⟨hplace, hdue⟩ := h.logAt entry hentry
    exact ⟨hplace, due_kept hregistrations hfired hdue⟩
  · intro key r hr
    rw [hregistrations] at hr
    refine foundAt_kept (h.found key r hr) ?_ id ?_ ?_
    · intro p hp hkey
      exact ⟨p, by rw [hslots]; exact hp, hkey⟩
    · intro th slot hmem
      rw [hpending]
      exact hmem
    · intro slot hmem
      rw [hlog]
      exact hmem

theorem grown_placed {node : Node W F} {place : ℕ → Place} (h : Placed s place) (hd : Draining s)
    (hg : Grown s t node) (hslots : node.wakers.slots = []) (hnextId : node.wakers.nextId = 0)
    (hregistrations : t.registrations = s.registrations) (hlog : t.log = s.log) :
    Placed t place := by
  have hunborn := hd.unborn s.count (Nat.le_refl _)
  refine placed_kept h ?_ ?_ ?_ hregistrations hlog ?_
  · intro n
    by_cases hn : n = s.count
    · rw [hn, hg.born, hunborn, hslots]
    · rw [hg.wakers n hn]
  · intro n
    by_cases hn : n = s.count
    · rw [hn, hg.born, hunborn, hnextId]
    · rw [hg.wakers n hn]
  · intro n hfired
    by_cases hn : n = s.count
    · rw [hn, hunborn] at hfired
      exact absurd hfired Bool.false_ne_true
    · rw [hg.wakers n hn]
      exact hfired
  · intro th
    rw [System.pending, hg.threads]
    rfl

theorem slotKeys {place : ℕ → Place} (h : Placed s place) (n : ℕ) :
    ((s.nodes n).wakers.slots.map Parked.key).Nodup := by
  refine List.Nodup.map_on ?_ (List.Nodup.of_map Parked.id (h.slotIds n))
  intro p hp q hq hkey
  have hr := (h.slotAt n p hp).2
  rw [hkey, (h.slotAt n q hq).2] at hr
  have hid : p.id = q.id := by
    simp only [Option.some.injEq, Registration.mk.injEq] at hr
    exact hr.2.1.symm
  exact List.inj_on_of_nodup_map (h.slotIds n) hp hq hid

theorem fire_placed {place : ℕ → Place} (h : Placed s place) {key : ℕ} {slot : Slot W F}
    (hhead : s.pending th = (key, slot) :: t.pending th)
    (hother : ∀ other, other ≠ th → t.pending other = s.pending other)
    (hwakers : ∀ n, (t.nodes n).wakers = (s.nodes n).wakers)
    (hregistrations : t.registrations = s.registrations)
    (hlog : t.log = s.log ++ [(key, slot)]) : Placed t (Function.update place key .fired) := by
  have hmem : (key, slot) ∈ s.pending th := by
    rw [hhead]
    exact List.mem_cons_self
  obtain ⟨hkey, hdue⟩ := h.pendingAt th (key, slot) hmem
  have hkeys := h.pendingKeys th
  rw [hhead, List.map_cons, List.nodup_cons] at hkeys
  have hsub : ∀ other, ∀ entry ∈ t.pending other, entry ∈ s.pending other ∧ entry.1 ≠ key := by
    intro other entry hentry
    by_cases hth : other = th
    · rw [hth] at hentry ⊢
      refine ⟨by rw [hhead]; exact List.mem_cons_of_mem _ hentry, ?_⟩
      intro heq
      exact hkeys.1 (List.mem_map.mpr ⟨entry, hentry, heq⟩)
    · rw [hother other hth] at hentry
      refine ⟨hentry, ?_⟩
      rintro rfl
      have hplace := (h.pendingAt other entry hentry).1
      rw [hkey] at hplace
      exact hth (Place.pending.inj hplace).symm
  have hdues : ∀ entry, s.Due entry → t.Due entry := by
    intro entry
    exact due_kept hregistrations fun n hn => by rw [hwakers]; exact hn
  refine ⟨?_, ?_, ?_, ?_, ?_, ?_, ?_, ?_⟩
  · intro n
    rw [hwakers]
    exact h.slotIds n
  · intro n p hp
    rw [hwakers] at hp ⊢
    exact h.slotBelow n p hp
  · intro n p hp
    rw [hwakers] at hp
    obtain ⟨hplace, hr⟩ := h.slotAt n p hp
    have hne : p.key ≠ key := by
      rintro heq
      rw [heq, hkey] at hplace
      cases hplace
    rw [Function.update_of_ne hne, hregistrations]
    exact ⟨hplace, hr⟩
  · intro other
    by_cases hth : other = th
    · rw [hth]
      exact hkeys.2
    · rw [hother other hth]
      exact h.pendingKeys other
  · intro other entry hentry
    obtain ⟨hold, hne⟩ := hsub other entry hentry
    obtain ⟨hplace, hdue⟩ := h.pendingAt other entry hold
    rw [Function.update_of_ne hne]
    exact ⟨hplace, hdues entry hdue⟩
  · rw [hlog, List.map_append, List.nodup_append]
    refine ⟨h.logKeys, List.nodup_singleton _, ?_⟩
    intro k hk k' hk' heq
    obtain rfl := List.mem_singleton.mp hk'
    obtain ⟨entry, hentry, rfl⟩ := List.mem_map.mp hk
    have hplace := (h.logAt entry hentry).1
    rw [heq, hkey] at hplace
    cases hplace
  · intro entry hentry
    rw [hlog] at hentry
    rcases List.mem_append.mp hentry with hold | hnew
    · obtain ⟨hplace, hdue⟩ := h.logAt entry hold
      have hne : entry.1 ≠ key := by
        rintro heq
        rw [heq, hkey] at hplace
        cases hplace
      rw [Function.update_of_ne hne]
      exact ⟨hplace, hdues entry hdue⟩
    · obtain rfl := List.mem_singleton.mp hnew
      exact ⟨Function.update_self .., hdues _ hdue⟩
  · intro k r hr
    rw [hregistrations] at hr
    by_cases hk : k = key
    · rw [hk, Function.update_self]
      exact ⟨slot, by rw [hlog]; exact List.mem_append_right _ (List.mem_singleton.mpr rfl)⟩
    rw [Function.update_of_ne hk]
    refine foundAt_kept (h.found k r hr) ?_ id ?_ ?_
    · intro p hp hpk
      exact ⟨p, by rw [hwakers]; exact hp, hpk⟩
    · intro other slot' hmem'
      by_cases hth : other = th
      · rw [hth, hhead] at hmem'
        rw [hth]
        rcases List.mem_cons.mp hmem' with heq | hlater
        · exact absurd (congrArg Prod.fst heq) hk
        · exact hlater
      · rw [hother other hth]
        exact hmem'
    · intro slot' hmem'
      rw [hlog]
      exact List.mem_append_left _ hmem'

theorem drain_placed {place : ℕ → Place} (h : Placed s place) {n : ℕ}
    (hstack : s.threads th = .drain n :: rest) :
    Placed (s.step th) fun key =>
      if key ∈ (s.nodes n).wakers.slots.map Parked.key then .pending th else place key := by
  have hnodes := drain_nodes hstack
  have hregistrations : (s.step th).registrations = s.registrations := by
    rw [step_eq hstack]
    rfl
  have hlog : (s.step th).log = s.log := by
    rw [step_eq hstack]
    rfl
  have hself : ((s.step th).nodes n).wakers = (s.nodes n).wakers.drain.1 := by
    rw [hnodes, setWakers_self]
  have hrest : ∀ m, m ≠ n → (s.step th).nodes m = s.nodes m := by
    intro m hm
    rw [hnodes, setWakers_other s _ hm]
  have hpending : (s.step th).pending th =
      (s.nodes n).wakers.slots.map (fun p => (p.key, p.slot)) ++ s.pending th := by
    rw [pending_step hstack, pending_stack hstack]
    exact congrArg (· ++ _) (List.append_nil _)
  have hdues : ∀ entry, s.Due entry → (s.step th).Due entry := by
    intro entry
    refine due_kept hregistrations fun m hm => ?_
    by_cases hmn : m = n
    · rw [hmn, hself]
      rfl
    · rw [hrest m hmn]
      exact hm
  have hmoved : ∀ key, place key ≠ .parked → key ∉ (s.nodes n).wakers.slots.map Parked.key := by
    intro key hplace hmem
    obtain ⟨p, hp, rfl⟩ := List.mem_map.mp hmem
    exact hplace (h.slotAt n p hp).1
  refine ⟨?_, ?_, ?_, ?_, ?_, ?_, ?_, ?_⟩
  · intro m
    by_cases hm : m = n
    · rw [hm, hself]
      exact List.nodup_nil
    · rw [hrest m hm]
      exact h.slotIds m
  · intro m p hp
    by_cases hm : m = n
    · rw [hm, hself] at hp
      exact absurd hp List.not_mem_nil
    · rw [hrest m hm] at hp ⊢
      exact h.slotBelow m p hp
  · intro m p hp
    by_cases hm : m = n
    · rw [hm, hself] at hp
      exact absurd hp List.not_mem_nil
    · rw [hrest m hm] at hp
      obtain ⟨hplace, hr⟩ := h.slotAt m p hp
      have hkey : p.key ∉ (s.nodes n).wakers.slots.map Parked.key := by
        intro hmem
        obtain ⟨q, hq, hqp⟩ := List.mem_map.mp hmem
        have hr' := (h.slotAt n q hq).2
        rw [hqp, hr] at hr'
        exact hm (congrArg Registration.node (Option.some.inj hr'))
      rw [if_neg hkey, hregistrations]
      exact ⟨hplace, hr⟩
  · intro other
    by_cases hth : other = th
    · rw [hth, hpending, List.map_append, List.map_map, List.nodup_append]
      refine ⟨slotKeys h n, h.pendingKeys th, ?_⟩
      rintro k hk k' hk' rfl
      obtain ⟨entry, hentry, rfl⟩ := List.mem_map.mp hk'
      refine hmoved entry.1 ?_ hk
      rw [(h.pendingAt th entry hentry).1]
      simp
    · rw [pending_other hstack hth]
      exact h.pendingKeys other
  · intro other entry hentry
    by_cases hold : entry ∈ s.pending other
    · obtain ⟨hplace, hdue⟩ := h.pendingAt other entry hold
      rw [if_neg (hmoved entry.1 (by rw [hplace]; simp))]
      exact ⟨hplace, hdues entry hdue⟩
    by_cases hth : other = th
    · rw [hth, hpending] at hentry
      rw [hth] at hold ⊢
      rcases List.mem_append.mp hentry with hnew | hin
      · obtain ⟨p, hp, rfl⟩ := List.mem_map.mp hnew
        refine ⟨if_pos (List.mem_map_of_mem hp), n, some p.id, ?_, by rw [hself]; rfl⟩
        rw [hregistrations]
        exact (h.slotAt n p hp).2
      · exact absurd hin hold
    · rw [pending_other hstack hth] at hentry
      exact absurd hentry hold
  · rw [hlog]
    exact h.logKeys
  · intro entry hentry
    rw [hlog] at hentry
    obtain ⟨hplace, hdue⟩ := h.logAt entry hentry
    rw [if_neg (hmoved entry.1 (by rw [hplace]; simp))]
    exact ⟨hplace, hdues entry hdue⟩
  · intro key r hr
    rw [hregistrations] at hr
    by_cases hkey : key ∈ (s.nodes n).wakers.slots.map Parked.key
    · rw [if_pos hkey]
      obtain ⟨p, hp, rfl⟩ := List.mem_map.mp hkey
      refine ⟨p.slot, ?_⟩
      rw [hpending]
      exact List.mem_append_left _ (List.mem_map_of_mem hp)
    rw [if_neg hkey]
    refine foundAt_kept (h.found key r hr) ?_ id ?_ ?_
    · intro p hp hpk
      have hm : r.node ≠ n := by
        intro heq
        rw [heq] at hp
        exact hkey (List.mem_map.mpr ⟨p, hp, hpk⟩)
      exact ⟨p, by rw [hrest r.node hm]; exact hp, hpk⟩
    · intro other slot hmem
      by_cases hth : other = th
      · rw [hth] at hmem
        rw [hth, hpending]
        exact List.mem_append_right _ hmem
      · rw [pending_other hstack hth]
        exact hmem
    · intro slot hmem
      rw [hlog]
      exact hmem

/-- A registration was added, and its slot put at `spot`. -/
theorem added_placed {place : ℕ → Place} (h : Placed s place) {r : Registration W F}
    {spot : Place} (hregistrations : t.registrations = s.registrations ++ [r])
    (hfired : ∀ n, (t.nodes n).wakers.fired = (s.nodes n).wakers.fired) (hlog : t.log = s.log)
    (hids : ∀ n, ((t.nodes n).wakers.slots.map Parked.id).Nodup)
    (hbelow : ∀ n, ∀ p ∈ (t.nodes n).wakers.slots, p.id < (t.nodes n).wakers.nextId)
    (hslots : ∀ n, ∀ p ∈ (t.nodes n).wakers.slots, p ∈ (s.nodes n).wakers.slots ∨
      (spot = .parked ∧ p.key = s.registrations.length ∧ r = ⟨n, some p.id, p.slot, false⟩))
    (hkeptSlots : ∀ n, ∀ p ∈ (s.nodes n).wakers.slots, p ∈ (t.nodes n).wakers.slots)
    (hkeys : ∀ th, ((t.pending th).map Prod.fst).Nodup)
    (hpending : ∀ th, ∀ entry ∈ t.pending th, entry ∈ s.pending th ∨
      (spot = .pending th ∧ entry.1 = s.registrations.length ∧ t.Due entry))
    (hkeptPending : ∀ th, ∀ entry ∈ s.pending th, entry ∈ t.pending th)
    (hspot : t.FoundAt s.registrations.length r spot) :
    Placed t (Function.update place s.registrations.length spot) := by
  have hold : ∀ key r', s.registrations[key]? = some r' →
      key ≠ s.registrations.length ∧ t.registrations[key]? = some r' := by
    intro key r' hr'
    have hlt := (List.getElem?_eq_some_iff.mp hr').1
    refine ⟨Nat.ne_of_lt hlt, ?_⟩
    rw [hregistrations, List.getElem?_append_left hlt]
    exact hr'
  have hdues : ∀ entry, s.Due entry → entry.1 ≠ s.registrations.length ∧ t.Due entry := by
    rintro entry ⟨n, id, hr', hn⟩
    obtain ⟨hne, hr''⟩ := hold entry.1 _ hr'
    exact ⟨hne, n, id, hr'', by rw [hfired]; exact hn⟩
  have hnew : t.registrations[s.registrations.length]? = some r := by
    rw [hregistrations]
    exact List.getElem?_concat_length ..
  refine ⟨hids, hbelow, ?_, hkeys, ?_, ?_, ?_, ?_⟩
  · intro n p hp
    rcases hslots n p hp with hin | ⟨rfl, hkey, rfl⟩
    · obtain ⟨hplace, hr'⟩ := h.slotAt n p hin
      obtain ⟨hne, hr''⟩ := hold p.key _ hr'
      rw [Function.update_of_ne hne]
      exact ⟨hplace, hr''⟩
    · rw [hkey, Function.update_self]
      exact ⟨rfl, hnew⟩
  · intro th entry hentry
    rcases hpending th entry hentry with hin | ⟨rfl, hkey, hdue⟩
    · obtain ⟨hplace, hdue⟩ := h.pendingAt th entry hin
      obtain ⟨hne, hdue'⟩ := hdues entry hdue
      rw [Function.update_of_ne hne]
      exact ⟨hplace, hdue'⟩
    · rw [hkey, Function.update_self]
      exact ⟨rfl, hdue⟩
  · rw [hlog]
    exact h.logKeys
  · intro entry hentry
    rw [hlog] at hentry
    obtain ⟨hplace, hdue⟩ := h.logAt entry hentry
    obtain ⟨hne, hdue'⟩ := hdues entry hdue
    rw [Function.update_of_ne hne]
    exact ⟨hplace, hdue'⟩
  · intro key r' hr'
    by_cases hkey : key = s.registrations.length
    · subst hkey
      rw [hnew] at hr'
      obtain rfl := Option.some.inj hr'
      rw [Function.update_self]
      exact hspot
    rw [hregistrations] at hr'
    have hlt : key < s.registrations.length := by
      have hlt := (List.getElem?_eq_some_iff.mp hr').1
      rw [List.length_append, List.length_singleton] at hlt
      omega
    rw [List.getElem?_append_left hlt] at hr'
    rw [Function.update_of_ne hkey]
    refine foundAt_kept (h.found key r' hr') ?_ id (fun th slot => hkeptPending th _) ?_
    · intro p hp hpk
      exact ⟨p, hkeptSlots r'.node p hp, hpk⟩
    · intro slot hmem
      rw [hlog]
      exact hmem

def WakerSlots.park (w : WakerSlots W F) (key : ℕ) (slot : Slot W F) : WakerSlots W F :=
  { w with slots := w.slots ++ [⟨w.nextId, key, slot⟩], nextId := w.nextId + 1 }

theorem register_unfired {w : WakerSlots W F} (h : w.fired = false) (key : ℕ) (slot : Slot W F) :
    w.register key slot = (w.park key slot, some w.nextId) :=
  if_neg (by rw [h]; exact Bool.false_ne_true)

theorem register_late {w : WakerSlots W F} (h : w.fired = true) (key : ℕ) (slot : Slot W F) :
    w.register key slot = (w, none) :=
  if_pos h

theorem register_parked (s : System W F) (th n : ℕ) (slot : Slot W F)
    (hfired : (s.nodes n).wakers.fired = false) :
    s.register th n slot =
      { s.setWakers n ((s.nodes n).wakers.park s.registrations.length slot) with
        registrations :=
          s.registrations ++ [⟨n, some (s.nodes n).wakers.nextId, slot, false⟩] } := by
  rw [System.register, register_unfired hfired]
  rfl

theorem register_fired (s : System W F) (th n : ℕ) (slot : Slot W F)
    (hfired : (s.nodes n).wakers.fired = true) :
    s.register th n slot =
      System.begin
        { s.setWakers n (s.nodes n).wakers with
          registrations := s.registrations ++ [⟨n, none, slot, false⟩] }
        th (.fireAtOnce n s.registrations.length slot) := by
  rw [System.register, register_late hfired]
  rfl

theorem parked_placed {place : ℕ → Place} (h : Placed s place) (th n : ℕ) (slot : Slot W F)
    (hfired : (s.nodes n).wakers.fired = false) :
    Placed (s.register th n slot) (Function.update place s.registrations.length .parked) := by
  rw [register_parked s th n slot hfired]
  have hslots : ∀ m p, p ∈ ((s.setWakers n
      ((s.nodes n).wakers.park s.registrations.length slot)).nodes m).wakers.slots ↔
      p ∈ (s.nodes m).wakers.slots ∨
        (m = n ∧ p = ⟨(s.nodes n).wakers.nextId, s.registrations.length, slot⟩) := by
    intro m p
    by_cases hm : m = n
    · rw [hm, setWakers_self, WakerSlots.park, List.mem_append, List.mem_singleton]
      simp only [true_and]
    · rw [setWakers_other s _ hm]
      simp only [hm, false_and, or_false]
  refine added_placed h rfl (fun m => setWakers_fired s n m rfl) rfl ?_ ?_ ?_ ?_ h.pendingKeys
    (fun th entry => .inl) (fun th entry => id) ?_
  · intro m
    by_cases hm : m = n
    · rw [hm]
      change ((((s.setWakers n _).nodes n).wakers.slots).map Parked.id).Nodup
      rw [setWakers_self, WakerSlots.park, List.map_append, List.nodup_append]
      refine ⟨h.slotIds n, List.nodup_singleton _, ?_⟩
      rintro i hi j hj rfl
      obtain ⟨p, hp, rfl⟩ := List.mem_map.mp hi
      have hbelow := h.slotBelow n p hp
      rw [List.mem_singleton.mp hj] at hbelow
      exact Nat.lt_irrefl _ hbelow
    · change ((((s.setWakers n _).nodes m).wakers.slots).map Parked.id).Nodup
      rw [setWakers_other s _ hm]
      exact h.slotIds m
  · intro m p hp
    change p.id < ((s.setWakers n _).nodes m).wakers.nextId
    rcases (hslots m p).mp hp with hold | ⟨rfl, rfl⟩
    · have hbelow := h.slotBelow m p hold
      by_cases hm : m = n
      · rw [hm] at hbelow
        rw [hm, setWakers_self]
        exact Nat.lt_succ_of_lt hbelow
      · rw [setWakers_other s _ hm]
        exact hbelow
    · rw [setWakers_self]
      exact Nat.lt_succ_self _
  · intro m p hp
    rcases (hslots m p).mp hp with hold | ⟨rfl, rfl⟩
    · exact .inl hold
    · exact .inr ⟨rfl, rfl, rfl⟩
  · intro m p hp
    exact (hslots m p).mpr (.inl hp)
  · exact ⟨_, (hslots n _).mpr (.inr ⟨rfl, rfl⟩), rfl⟩

theorem late_placed {place : ℕ → Place} (h : Placed s place) (th n : ℕ) (slot : Slot W F)
    (hfired : (s.nodes n).wakers.fired = true) :
    Placed (s.register th n slot)
      (Function.update place s.registrations.length (.pending th)) := by
  have hself : (s.register th n slot).pending th =
      (s.registrations.length, slot) :: s.pending th := by
    rw [register_fired s th n slot hfired, System.pending, begin_self, List.flatMap_cons]
    rfl
  have hother : ∀ other, other ≠ th → (s.register th n slot).pending other = s.pending other := by
    intro other hne
    rw [register_fired s th n slot hfired, System.pending, begin_other _ _ hne]
    rfl
  have hwakers : ∀ m, ((s.register th n slot).nodes m).wakers = (s.nodes m).wakers := by
    intro m
    rw [register_fired s th n slot hfired]
    exact setWakers_same s n m
  have hregistrations : (s.register th n slot).registrations =
      s.registrations ++ [⟨n, none, slot, false⟩] := by
    rw [register_fired s th n slot hfired]
    rfl
  have hlog : (s.register th n slot).log = s.log := by
    rw [register_fired s th n slot hfired]
    rfl
  refine added_placed h hregistrations (fun m => by rw [hwakers]) hlog ?_ ?_ ?_ ?_ ?_ ?_ ?_ ?_
  · intro m
    rw [hwakers]
    exact h.slotIds m
  · intro m p hp
    rw [hwakers] at hp ⊢
    exact h.slotBelow m p hp
  · intro m p hp
    rw [hwakers] at hp
    exact .inl hp
  · intro m p hp
    rw [hwakers]
    exact hp
  · intro other
    by_cases hth : other = th
    · rw [hth, hself, List.map_cons, List.nodup_cons]
      refine ⟨?_, h.pendingKeys th⟩
      intro hmem
      obtain ⟨entry, hentry, hkey⟩ := List.mem_map.mp hmem
      obtain ⟨-, m, id, hr, -⟩ := h.pendingAt th entry hentry
      have hlt := (List.getElem?_eq_some_iff.mp hr).1
      exact absurd hkey (Nat.ne_of_lt hlt)
    · rw [hother other hth]
      exact h.pendingKeys other
  · intro other entry hentry
    by_cases hth : other = th
    · rw [hth, hself] at hentry
      rw [hth]
      rcases List.mem_cons.mp hentry with rfl | hold
      · refine .inr ⟨rfl, rfl, n, none, ?_, by rw [hwakers]; exact hfired⟩
        rw [hregistrations]
        exact List.getElem?_concat_length ..
      · exact .inl hold
    · rw [hother other hth] at hentry
      exact .inl hentry
  · intro other entry hentry
    by_cases hth : other = th
    · rw [hth] at hentry
      rw [hth, hself]
      exact List.mem_cons_of_mem _ hentry
    · rw [hother other hth]
      exact hentry
  · exact ⟨slot, by rw [hself]; exact List.mem_cons_self⟩

theorem amend_get (s : System W F) {n id : ℕ} (f : Registration W F → Registration W F)
    (hfired : (s.nodes n).wakers.fired = false) (key : ℕ) :
    (s.amend n id f)[key]? =
      s.registrations[key]?.map fun r => if r.node = n ∧ r.id = some id then f r else r := by
  rw [System.amend, hfired, if_neg Bool.false_ne_true, List.getElem?_map]

theorem amend_fired (s : System W F) {n id : ℕ} (f : Registration W F → Registration W F)
    (hfired : (s.nodes n).wakers.fired = true) : s.amend n id f = s.registrations := by
  rw [System.amend, if_pos hfired]

/-- What is due on a node whose drain has been is not touched before the drain of another. -/
theorem due_amended {n id : ℕ} {f : Registration W F → Registration W F}
    (hfired : (s.nodes n).wakers.fired = false)
    (hregistrations : t.registrations = s.amend n id f)
    (hkept : ∀ m, (t.nodes m).wakers.fired = (s.nodes m).wakers.fired)
    {entry : ℕ × Slot W F} (h : s.Due entry) : t.Due entry := by
  obtain ⟨m, id', hr, hm⟩ := h
  refine ⟨m, id', ?_, by rw [hkept]; exact hm⟩
  have hne : m ≠ n := by
    rintro rfl
    rw [hfired] at hm
    exact Bool.false_ne_true hm
  rw [hregistrations, amend_get s f hfired, hr, Option.map_some, if_neg fun hand => hne hand.1]

theorem refreshFirst_eq (id : ℕ) (slot : Slot W F) :
    ∀ ps : List (Parked W F), (ps.map Parked.id).Nodup →
      (refreshFirst id slot ps).getD ps =
        ps.map fun p => if p.id = id then { p with slot := slot } else p := by
  intro ps
  induction ps with
  | nil => exact fun _ => rfl
  | cons p rest ih =>
    intro hids
    rw [List.map_cons, List.nodup_cons] at hids
    rw [refreshFirst, List.map_cons]
    by_cases hp : p.id = id
    · rw [if_pos hp, if_pos hp, Option.getD_some]
      have hrest : rest.map (fun p => if p.id = id then { p with slot := slot } else p) = rest := by
        rw [List.map_congr_left (g := fun p => p), List.map_id']
        intro q hq
        refine if_neg fun heq => hids.1 ?_
        rw [hp, ← heq]
        exact List.mem_map_of_mem hq
      rw [hrest]
    · rw [if_neg hp, if_neg hp, ← ih hids.2]
      cases refreshFirst id slot rest with
      | none => rfl
      | some refreshed => rfl

/-- The waker of the slot `id` of the node `n` was replaced, in the registry and for its caller. -/
theorem refreshed_placed {place : ℕ → Place} (h : Placed s place) {n id : ℕ} {slot : Slot W F}
    (hfired : (s.nodes n).wakers.fired = false)
    (hself : (t.nodes n).wakers.slots = (s.nodes n).wakers.slots.map
      fun p => if p.id = id then { p with slot := slot } else p)
    (hrest : ∀ m, m ≠ n → (t.nodes m).wakers.slots = (s.nodes m).wakers.slots)
    (hnextId : ∀ m, (t.nodes m).wakers.nextId = (s.nodes m).wakers.nextId)
    (hkept : ∀ m, (t.nodes m).wakers.fired = (s.nodes m).wakers.fired)
    (hregistrations : t.registrations = s.amend n id fun r => { r with slot := slot })
    (hlog : t.log = s.log) (hpending : ∀ th, t.pending th = s.pending th) : Placed t place := by
  have hids : ∀ p : Parked W F, (if p.id = id then { p with slot := slot } else p).id = p.id := by
    intro p
    split <;> rfl
  have hkeys : ∀ p : Parked W F, (if p.id = id then { p with slot := slot } else p).key = p.key := by
    intro p
    split <;> rfl
  refine ⟨?_, ?_, ?_, ?_, ?_, ?_, ?_, ?_⟩
  · intro m
    by_cases hm : m = n
    · rw [hm, hself, List.map_map]
      have heq : (Parked.id ∘ fun p : Parked W F =>
          if p.id = id then { p with slot := slot } else p) = Parked.id := funext hids
      rw [heq]
      exact h.slotIds n
    · rw [hrest m hm]
      exact h.slotIds m
  · intro m p hp
    rw [hnextId]
    by_cases hm : m = n
    · rw [hm, hself] at hp
      obtain ⟨q, hq, rfl⟩ := List.mem_map.mp hp
      rw [hids, hm]
      exact h.slotBelow n q hq
    · rw [hrest m hm] at hp
      exact h.slotBelow m p hp
  · intro m p hp
    rw [hregistrations, amend_get s _ hfired]
    by_cases hm : m = n
    · rw [hm, hself] at hp
      obtain ⟨q, hq, rfl⟩ := List.mem_map.mp hp
      obtain ⟨hplace, hr⟩ := h.slotAt n q hq
      rw [hkeys, hids]
      refine ⟨hplace, ?_⟩
      rw [hr, Option.map_some, hm]
      by_cases hid : q.id = id
      · rw [if_pos hid, if_pos ⟨rfl, congrArg some hid⟩]
      · rw [if_neg hid, if_neg fun hand => hid (Option.some.inj hand.2)]
    · rw [hrest m hm] at hp
      obtain ⟨hplace, hr⟩ := h.slotAt m p hp
      refine ⟨hplace, ?_⟩
      rw [hr, Option.map_some, if_neg fun hand => hm hand.1]
  · intro th
    rw [hpending]
    exact h.pendingKeys th
  · intro th entry hentry
    rw [hpending] at hentry
    obtain ⟨hplace, hdue⟩ := h.pendingAt th entry hentry
    exact ⟨hplace, due_amended hfired hregistrations hkept hdue⟩
  · rw [hlog]
    exact h.logKeys
  · intro entry hentry
    rw [hlog] at hentry
    obtain ⟨hplace, hdue⟩ := h.logAt entry hentry
    exact ⟨hplace, due_amended hfired hregistrations hkept hdue⟩
  · intro key r' hr'
    rw [hregistrations, amend_get s _ hfired] at hr'
    obtain ⟨r, hr, rfl⟩ := Option.map_eq_some_iff.mp hr'
    have hnode : (if r.node = n ∧ r.id = some id then { r with slot := slot } else r).node =
        r.node := by
      split <;> rfl
    refine foundAt_kept (h.found key r hr) ?_ ?_ ?_ ?_
    · intro p hp hkey
      rw [hnode]
      by_cases hm : r.node = n
      · rw [hm] at hp
        rw [hm, hself]
        exact ⟨_, List.mem_map_of_mem hp, by rw [hkeys]; exact hkey⟩
      · rw [hrest r.node hm]
        exact ⟨p, hp, hkey⟩
    · intro hwithdrawn
      split
      · exact hwithdrawn
      · exact hwithdrawn
    · intro th slot' hmem
      rw [hpending]
      exact hmem
    · intro slot' hmem
      rw [hlog]
      exact hmem

theorem refreshTask_wakers (s : System W F) (th n id : ℕ) (waker : W)
    (hids : ((s.nodes n).wakers.slots.map Parked.id).Nodup) :
    ((s.refreshTask th n id waker).nodes n).wakers.slots = (s.nodes n).wakers.slots.map
        (fun p => if p.id = id then { p with slot := .task waker } else p) ∧
      ((s.refreshTask th n id waker).nodes n).wakers.nextId = (s.nodes n).wakers.nextId ∧
      ((s.refreshTask th n id waker).nodes n).wakers.fired = (s.nodes n).wakers.fired := by
  have hslots := refreshFirst_eq id (Slot.task waker) (s.nodes n).wakers.slots hids
  rw [System.refreshTask, WakerSlots.refreshTask]
  cases hfirst : refreshFirst id (Slot.task waker) (s.nodes n).wakers.slots with
  | some refreshed =>
    rw [hfirst, Option.getD_some] at hslots
    rw [Option.map_some]
    change ((System.setWakers _ n _).nodes n).wakers.slots = _ ∧
      ((System.setWakers _ n _).nodes n).wakers.nextId = _ ∧
      ((System.setWakers _ n _).nodes n).wakers.fired = _
    rw [setWakers_self]
    exact ⟨hslots, rfl, rfl⟩
  | none =>
    rw [hfirst, Option.getD_none] at hslots
    exact ⟨hslots, rfl, rfl⟩

theorem refreshTask_rest (s : System W F) (th n id : ℕ) (waker : W) {m : ℕ} (hm : m ≠ n) :
    (s.refreshTask th n id waker).nodes m = s.nodes m := by
  rw [System.refreshTask]
  split
  · exact setWakers_other _ _ hm
  · rfl

theorem refreshTask_pending (s : System W F) (th n id other : ℕ) (waker : W) :
    (s.refreshTask th n id waker).pending other = s.pending other := by
  rw [System.refreshTask]
  split
  · rfl
  · exact pending_begin _ th other _ rfl

theorem refreshTask_record (s : System W F) (th n id : ℕ) (waker : W) :
    (s.refreshTask th n id waker).registrations =
        s.amend n id (fun r => { r with slot := .task waker }) ∧
      (s.refreshTask th n id waker).log = s.log ∧
      (s.refreshTask th n id waker).count = s.count := by
  rw [System.refreshTask]
  split
  · exact ⟨rfl, rfl, rfl⟩
  · exact ⟨rfl, rfl, rfl⟩

theorem refreshTask_placed {place : ℕ → Place} (h : Placed s place) (hd : Draining s)
    (th n id : ℕ) (waker : W) : Placed (s.refreshTask th n id waker) place := by
  obtain ⟨hslots, hnextId, hfired⟩ := refreshTask_wakers s th n id waker (h.slotIds n)
  obtain ⟨hregistrations, hlog, -⟩ := refreshTask_record s th n id waker
  have hrest : ∀ m, m ≠ n → (s.refreshTask th n id waker).nodes m = s.nodes m :=
    fun m => refreshTask_rest s th n id waker
  have hnextId' : ∀ m, ((s.refreshTask th n id waker).nodes m).wakers.nextId =
      (s.nodes m).wakers.nextId := by
    intro m
    by_cases hm : m = n
    · rw [hm, hnextId]
    · rw [hrest m hm]
  have hfired' : ∀ m, ((s.refreshTask th n id waker).nodes m).wakers.fired =
      (s.nodes m).wakers.fired := by
    intro m
    by_cases hm : m = n
    · rw [hm, hfired]
    · rw [hrest m hm]
  have hpending := fun other => refreshTask_pending s th n id other waker
  cases hdone : (s.nodes n).wakers.fired with
  | false =>
    exact refreshed_placed h hdone hslots (fun m hm => by rw [hrest m hm]) hnextId' hfired'
      hregistrations hlog hpending
  | true =>
    refine placed_kept h ?_ hnextId' (fun m hm => by rw [hfired']; exact hm) ?_ hlog hpending
    · intro m
      by_cases hm : m = n
      · rw [hm, hslots, (hd.fired n hdone).2]
        rfl
      · rw [hrest m hm]
    · rw [hregistrations, amend_fired s _ hdone]

theorem unregister_wakers (s : System W F) (n id : ℕ) :
    ((s.unregister n id).nodes n).wakers = (s.nodes n).wakers.unregister id :=
  setWakers_self s n _

theorem unregister_rest (s : System W F) (n id : ℕ) {m : ℕ} (hm : m ≠ n) :
    (s.unregister n id).nodes m = s.nodes m :=
  setWakers_other s _ hm

theorem withdrawn_placed {place : ℕ → Place} (h : Placed s place) {n id : ℕ}
    (hfired : (s.nodes n).wakers.fired = false) :
    Placed (s.unregister n id) fun key =>
      if key ∈ ((s.nodes n).wakers.slots.filter fun p => p.id == id).map Parked.key then .withdrawn
      else place key := by
  have hself : ((s.unregister n id).nodes n).wakers.slots =
      (s.nodes n).wakers.slots.filter fun p => p.id != id := by
    rw [unregister_wakers]
    rfl
  have hrest : ∀ m, m ≠ n → (s.unregister n id).nodes m = s.nodes m :=
    fun m => unregister_rest s n id
  have hkept : ∀ m, ((s.unregister n id).nodes m).wakers.fired = (s.nodes m).wakers.fired :=
    fun m => setWakers_fired s n m rfl
  have hgone : ∀ key, key ∈ ((s.nodes n).wakers.slots.filter fun p => p.id == id).map Parked.key →
      place key = .parked ∧ ∃ slot, s.registrations[key]? = some ⟨n, some id, slot, false⟩ := by
    intro key hmem
    obtain ⟨p, hp, rfl⟩ := List.mem_map.mp hmem
    obtain ⟨hp, hid⟩ := List.mem_filter.mp hp
    obtain ⟨hplace, hr⟩ := h.slotAt n p hp
    rw [beq_iff_eq.mp hid] at hr
    exact ⟨hplace, p.slot, hr⟩
  have hstays : ∀ key, place key ≠ .parked →
      key ∉ ((s.nodes n).wakers.slots.filter fun p => p.id == id).map Parked.key :=
    fun key hplace hmem => hplace (hgone key hmem).1
  refine ⟨?_, ?_, ?_, ?_, ?_, ?_, ?_, ?_⟩
  · intro m
    by_cases hm : m = n
    · rw [hm, hself]
      exact (List.Sublist.map _ List.filter_sublist).nodup (h.slotIds n)
    · rw [hrest m hm]
      exact h.slotIds m
  · intro m p hp
    by_cases hm : m = n
    · rw [hm, hself] at hp
      rw [hm, unregister_wakers]
      exact h.slotBelow n p (List.mem_filter.mp hp).1
    · rw [hrest m hm] at hp ⊢
      exact h.slotBelow m p hp
  · intro m p hp
    have hold : p ∈ (s.nodes m).wakers.slots ∧ ¬(m = n ∧ p.id = id) := by
      by_cases hm : m = n
      · rw [hm, hself] at hp
        obtain ⟨hp, hid⟩ := List.mem_filter.mp hp
        rw [hm]
        exact ⟨hp, fun hand => bne_iff_ne.mp hid hand.2⟩
      · rw [hrest m hm] at hp
        exact ⟨hp, fun hand => hm hand.1⟩
    obtain ⟨hplace, hr⟩ := h.slotAt m p hold.1
    have hkey : p.key ∉ ((s.nodes n).wakers.slots.filter fun p => p.id == id).map Parked.key := by
      intro hmem
      obtain ⟨-, slot, hr'⟩ := hgone p.key hmem
      rw [hr] at hr'
      simp only [Option.some.injEq, Registration.mk.injEq] at hr'
      exact hold.2 ⟨hr'.1, hr'.2.1⟩
    rw [if_neg hkey]
    refine ⟨hplace, ?_⟩
    change (s.amend n id _)[p.key]? = _
    rw [amend_get s _ hfired, hr, Option.map_some,
      if_neg fun hand => hold.2 ⟨hand.1, Option.some.inj hand.2⟩]
  · exact h.pendingKeys
  · intro th entry hentry
    obtain ⟨hplace, hdue⟩ := h.pendingAt th entry hentry
    rw [if_neg (hstays entry.1 (by rw [hplace]; simp))]
    exact ⟨hplace, due_amended hfired rfl hkept hdue⟩
  · exact h.logKeys
  · intro entry hentry
    obtain ⟨hplace, hdue⟩ := h.logAt entry hentry
    rw [if_neg (hstays entry.1 (by rw [hplace]; simp))]
    exact ⟨hplace, due_amended hfired rfl hkept hdue⟩
  · intro key r' hr'
    change (s.amend n id _)[key]? = _ at hr'
    rw [amend_get s _ hfired] at hr'
    obtain ⟨r, hr, rfl⟩ := Option.map_eq_some_iff.mp hr'
    by_cases hkey : key ∈ ((s.nodes n).wakers.slots.filter fun p => p.id == id).map Parked.key
    · obtain ⟨-, slot, hr''⟩ := hgone key hkey
      rw [hr] at hr''
      obtain rfl := Option.some.inj hr''
      rw [if_pos hkey, if_pos ⟨rfl, rfl⟩]
      exact rfl
    rw [if_neg hkey]
    have hnode : (if r.node = n ∧ r.id = some id then { r with withdrawn := true } else r).node =
        r.node := by
      split <;> rfl
    refine foundAt_kept (h.found key r hr) ?_ ?_ (fun th slot hm => hm) fun slot hm => hm
    · intro p hp hpk
      rw [hnode]
      refine ⟨p, ?_, hpk⟩
      by_cases hm : r.node = n
      · rw [hm] at hp
        rw [hm, hself]
        refine List.mem_filter.mpr ⟨hp, bne_iff_ne.mpr fun hid => hkey ?_⟩
        exact List.mem_map.mpr ⟨p, List.mem_filter.mpr ⟨hp, beq_iff_eq.mpr hid⟩, hpk⟩
      · rw [hrest r.node hm]
        exact hp
    · intro hwithdrawn
      split
      · rfl
      · exact hwithdrawn

theorem unregister_placed {place : ℕ → Place} (h : Placed s place) (hd : Draining s) (n id : ℕ) :
    ∃ place', Placed (s.unregister n id) place' := by
  cases hdone : (s.nodes n).wakers.fired with
  | false => exact ⟨_, withdrawn_placed h hdone⟩
  | true =>
    refine ⟨place, placed_kept h ?_ ?_ ?_ (amend_fired s _ hdone) rfl fun th => rfl⟩
    · intro m
      by_cases hm : m = n
      · rw [hm, unregister_wakers, WakerSlots.unregister, (hd.fired n hdone).2]
        rfl
      · rw [unregister_rest s n id hm]
    · intro m
      by_cases hm : m = n
      · rw [hm, unregister_wakers]
        rfl
      · rw [unregister_rest s n id hm]
    · intro m hm
      rw [← hm]
      exact setWakers_fired s n m rfl

theorem draining_kept (h : Draining s) (hcount : s.count ≤ t.count)
    (hunborn : ∀ n, t.count ≤ n → (t.nodes n).wakers = (s.nodes n).wakers)
    (hfired : ∀ n, (t.nodes n).wakers.fired = (s.nodes n).wakers.fired)
    (hslots : ∀ n, (s.nodes n).wakers.fired = true → (s.nodes n).wakers.slots = [] →
      (t.nodes n).wakers.slots = [])
    (hflag : ∀ n, (t.nodes n).flag = (s.nodes n).flag)
    (hdrain : ∀ n, s.Runs (.drain n) → t.Runs (.drain n)) : Draining t := by
  refine ⟨?_, ?_, ?_⟩
  · intro n hn
    rw [hunborn n hn]
    exact h.unborn n (Nat.le_trans hcount hn)
  · intro n hn
    rw [hfired] at hn
    obtain ⟨hset, hempty⟩ := h.fired n hn
    exact ⟨by rw [hflag]; exact hset, hslots n hn hempty⟩
  · intro n hset hn
    rw [hflag] at hset
    rw [hfired] at hn
    exact hdrain n (h.waiting n hset hn)

theorem wakers_draining (h : Draining s) (hcount : t.count = s.count)
    (hflag : ∀ n, (t.nodes n).flag = (s.nodes n).flag)
    (hwakers : ∀ n, (t.nodes n).wakers = (s.nodes n).wakers)
    (hdrain : ∀ n, s.Runs (.drain n) → t.Runs (.drain n)) : Draining t := by
  refine draining_kept h (Nat.le_of_eq hcount.symm) (fun n _ => hwakers n) ?_ ?_ hflag hdrain
  · intro n
    rw [hwakers]
  · intro n _ hempty
    rw [hwakers]
    exact hempty

theorem grown_draining {node : Node W F} (h : Draining s) (hg : Grown s t node)
    (hslots : node.wakers.slots = []) (hborn : node.wakers.fired = node.flag) : Draining t := by
  refine ⟨?_, ?_, ?_⟩
  · intro n hn
    rw [hg.count] at hn
    rw [hg.wakers n (by omega)]
    exact h.unborn n (by omega)
  · intro n hn
    by_cases hnew : n = s.count
    · rw [hnew, hg.born] at hn ⊢
      exact ⟨by rw [← hborn]; exact hn, hslots⟩
    · rw [hg.wakers n hnew] at hn ⊢
      rw [hg.flag n hnew]
      exact h.fired n hn
  · intro n hset hn
    by_cases hnew : n = s.count
    · rw [hnew, hg.born] at hset hn
      rw [hborn, hset] at hn
      exact absurd hn.symm Bool.false_ne_true
    · rw [hg.flag n hnew] at hset
      rw [hg.wakers n hnew] at hn
      exact hg.runs.mpr (h.waiting n hset hn)

theorem drain_frame_below (hr : Requesting s) {n : ℕ} (h : s.Runs (.drain n)) :
    (s.nodes n).flag = true ∧ n < s.count :=
  ⟨hr.sound _ h, (hr.flagged n (hr.sound _ h)).1⟩

theorem swap_draining (h : Draining s) {n : ℕ} (hstack : s.threads th = .swap n :: rest)
    (hunset : (s.nodes n).flag = false) : Draining (s.step th) := by
  have hrun := runFrame_swap hunset
  have hnodes := swap_nodes hstack hunset
  have hwakers : ∀ m, ((s.step th).nodes m).wakers = (s.nodes m).wakers := by
    intro m
    rw [hnodes]
    exact edit_field s n m _ Node.wakers fun _ => rfl
  have hother := (swap_flag hstack hunset).2
  have hcount := (step_workers hstack).2
  refine ⟨?_, ?_, ?_⟩
  · intro m hm
    rw [hcount] at hm
    rw [hwakers]
    exact h.unborn m hm
  · intro m hm
    rw [hwakers] at hm ⊢
    obtain ⟨hset, hempty⟩ := h.fired m hm
    have hmn : m ≠ n := by
      rintro rfl
      rw [hunset] at hset
      exact Bool.false_ne_true hset
    exact ⟨by rw [hother m hmn]; exact hset, hempty⟩
  · intro m hset hm
    rw [hwakers] at hm
    by_cases hmn : m = n
    · rw [hmn]
      exact runs_new hstack (by rw [hrun]; exact List.mem_cons_self)
    · rw [hother m hmn] at hset
      rcases runs_kept hstack (h.waiting m hset hm) with heq | hkept
      · cases heq
      · exact hkept

theorem drain_draining (h : Draining s) (hr : Requesting s) {n : ℕ}
    (hstack : s.threads th = .drain n :: rest) : Draining (s.step th) := by
  obtain ⟨hset, hbelow⟩ := drain_frame_below hr ⟨th, by rw [hstack]; exact List.mem_cons_self⟩
  have hnodes := drain_nodes hstack
  have hcount := (step_workers hstack).2
  have hself : ((s.step th).nodes n).wakers = (s.nodes n).wakers.drain.1 := by
    rw [hnodes, setWakers_self]
  have hrest : ∀ m, m ≠ n → (s.step th).nodes m = s.nodes m := by
    intro m hm
    rw [hnodes, setWakers_other s _ hm]
  have hflag : ∀ m, ((s.step th).nodes m).flag = (s.nodes m).flag := by
    intro m
    rw [hnodes]
    exact edit_field s n m _ Node.flag fun _ => rfl
  refine ⟨?_, ?_, ?_⟩
  · intro m hm
    rw [hcount] at hm
    rw [hrest m (by omega)]
    exact h.unborn m hm
  · intro m hm
    rw [hflag]
    by_cases hmn : m = n
    · rw [hmn, hself]
      exact ⟨hset, rfl⟩
    · rw [hrest m hmn] at hm ⊢
      exact h.fired m hm
  · intro m hm hunfired
    rw [hflag] at hm
    by_cases hmn : m = n
    · rw [hmn, hself] at hunfired
      exact absurd hunfired.symm Bool.false_ne_true
    · rw [hrest m hmn] at hunfired
      rcases runs_kept hstack (h.waiting m hm hunfired) with heq | hkept
      · exact absurd (Frame.drain.inj heq) hmn
      · exact hkept

/-- A step of a call that leaves the registries alone and hands on the slots it holds. -/
theorem quiet_step {place : ℕ → Place} (h : Placed s place) (hd : Draining s)
    (hstack : s.threads th = frame :: rest) (hframe : ∀ n, frame ≠ .drain n)
    (hcount : (s.step th).count = s.count)
    (hflag : ∀ n, ((s.step th).nodes n).flag = (s.nodes n).flag)
    (hwakers : ∀ n, ((s.step th).nodes n).wakers = (s.nodes n).wakers)
    (hregistrations : (s.runFrame frame).1.registrations = s.registrations)
    (hlog : (s.runFrame frame).1.log = s.log)
    (hpending : (s.runFrame frame).2.flatMap Frame.pending = frame.pending) :
    Placed (s.step th) place ∧ Draining (s.step th) := by
  constructor
  · refine placed_kept h ?_ ?_ ?_ ?_ ?_ ?_
    · intro n
      rw [hwakers]
    · intro n
      rw [hwakers]
    · intro n hn
      rw [hwakers]
      exact hn
    · rw [step_eq hstack]
      exact hregistrations
    · rw [step_eq hstack]
      exact hlog
    · intro other
      by_cases hth : other = th
      · rw [hth, pending_step hstack, hpending, pending_stack hstack]
      · exact pending_other hstack hth
  · refine wakers_draining hd hcount hflag hwakers ?_
    intro n hruns
    rcases runs_kept hstack hruns with heq | hkept
    · exact absurd heq.symm (hframe n)
    · exact hkept

/-- The next slot of the frame fires. -/
theorem firing_step {place : ℕ → Place} (h : Placed s place) (hd : Draining s)
    (hstack : s.threads th = frame :: rest) (hframe : ∀ n, frame ≠ .drain n) {key : ℕ}
    {slot : Slot W F} (hrun : (s.runFrame frame).1 = { s with log := s.log ++ [(key, slot)] })
    (hpending : frame.pending = (key, slot) :: (s.runFrame frame).2.flatMap Frame.pending) :
    Placed (s.step th) (Function.update place key .fired) ∧ Draining (s.step th) := by
  have hnodes : (s.step th).nodes = s.nodes := by
    rw [step_nodes hstack, hrun]
  have hsame := step_sameTree hstack (by rw [hrun]) (by rw [hrun])
  have hhead : s.pending th = (key, slot) :: (s.step th).pending th := by
    rw [pending_stack hstack, hpending, pending_step hstack, List.cons_append]
  constructor
  · refine fire_placed h hhead (fun other => pending_other hstack) ?_ ?_ ?_
    · intro n
      rw [hnodes]
    · rw [step_eq hstack, hrun]
      rfl
    · rw [step_eq hstack, hrun]
      rfl
  · refine wakers_draining hd hsame.count hsame.flag ?_ ?_
    · intro n
      rw [hnodes]
    · intro n hruns
      rcases runs_kept hstack hruns with heq | hkept
      · exact absurd heq.symm (hframe n)
      · exact hkept

theorem step_placed {place : ℕ → Place} (h : Placed s place) (hd : Draining s)
    (hr : Requesting s) (he : Enabled s (.step th)) :
    (∃ place', Placed (s.step th) place') ∧ Draining (s.step th) := by
  obtain ⟨frame, rest, hstack⟩ := step_running he
  have hnodes : (s.runFrame frame).1.nodes = s.nodes → (s.step th).nodes = s.nodes := by
    intro hrun
    rw [step_nodes hstack, hrun]
  have hplain : (∀ n, frame ≠ .drain n) → SameTree s (s.step th) →
      (s.step th).nodes = s.nodes → (s.runFrame frame).1.registrations = s.registrations →
      (s.runFrame frame).1.log = s.log →
      (s.runFrame frame).2.flatMap Frame.pending = frame.pending →
      (∃ place', Placed (s.step th) place') ∧ Draining (s.step th) := by
    intro hframe hsame hsame' hregistrations hlog hpending
    obtain ⟨hplaced, hdraining⟩ := quiet_step h hd hstack hframe hsame.count hsame.flag
      (fun n => by rw [hsame']) hregistrations hlog hpending
    exact ⟨⟨place, hplaced⟩, hdraining⟩
  cases frame with
  | swap n =>
    cases hflag : (s.nodes n).flag with
    | false =>
      have hrun := runFrame_swap hflag
      refine ⟨⟨place, ?_⟩, swap_draining hd hstack hflag⟩
      have hwakers : ∀ m, ((s.step th).nodes m).wakers = (s.nodes m).wakers := by
        intro m
        rw [step_nodes hstack, hrun]
        exact edit_field s n m (fun node => { node with flag := true }) Node.wakers fun _ => rfl
      refine placed_kept h (fun m => by rw [hwakers]) (fun m => by rw [hwakers])
        (fun m hm => by rw [hwakers]; exact hm) ?_ ?_ ?_
      · rw [step_eq hstack, hrun]
        rfl
      · rw [step_eq hstack, hrun]
        rfl
      · intro other
        by_cases hth : other = th
        · rw [hth, pending_step hstack, hrun, pending_stack hstack]
          rfl
        · exact pending_other hstack hth
    | true =>
      have hrun := runFrame_swapped hflag
      exact hplain (by simp) (step_sameTree hstack (by rw [hrun]) (by rw [hrun]))
        (hnodes (by rw [hrun])) (by rw [hrun]) (by rw [hrun]) (by rw [hrun]; rfl)
  | drain n => exact ⟨⟨_, drain_placed h hstack⟩, drain_draining hd hr hstack⟩
  | fire n drained =>
    cases drained with
    | nil =>
      have hedit := snapshot_nodes hstack
      obtain ⟨hplaced, hdraining⟩ := quiet_step h hd hstack (by simp)
        (by rw [step_eq hstack]; rfl)
        (fun m => by rw [hedit]; exact edit_field s n m _ Node.flag fun _ => rfl)
        (fun m => by rw [hedit]; exact edit_field s n m _ Node.wakers fun _ => rfl) rfl rfl rfl
      exact ⟨⟨place, hplaced⟩, hdraining⟩
    | cons entry drained =>
      obtain ⟨hplaced, hdraining⟩ := firing_step h hd hstack (by simp) rfl
        (by rw [System.runFrame, List.flatMap_cons, List.flatMap_nil, List.append_nil]; rfl)
      exact ⟨⟨_, hplaced⟩, hdraining⟩
  | walk n children =>
    cases children with
    | nil => exact hplain (by simp) (step_sameTree hstack rfl rfl) (hnodes rfl) rfl rfl rfl
    | cons first children =>
      exact hplain (by simp) (step_sameTree hstack rfl rfl) (hnodes rfl) rfl rfl rfl
  | fireAtOnce n key slot =>
    obtain ⟨hplaced, hdraining⟩ := firing_step h hd hstack (by simp) rfl rfl
    exact ⟨⟨_, hplaced⟩, hdraining⟩
  | wake n waker =>
    exact hplain (by simp) (step_sameTree hstack rfl rfl) (hnodes rfl) rfl rfl rfl

theorem register_draining (h : Draining s) (th : ℕ) {n : ℕ} (hn : n < s.count)
    (slot : Slot W F) : Draining (s.register th n slot) := by
  have hsame := register_sameTree s th n slot
  have hrest : ∀ m, m ≠ n → ((s.register th n slot).nodes m).wakers = (s.nodes m).wakers := by
    intro m hm
    rw [System.register]
    split
    · exact congrArg Node.wakers (setWakers_other s _ hm)
    · exact congrArg Node.wakers (setWakers_other s _ hm)
  refine draining_kept h (Nat.le_of_eq hsame.count.symm) ?_ ?_ ?_ hsame.flag
    fun m => runs_register s th n slot
  · intro m hm
    rw [hsame.count] at hm
    exact hrest m (by omega)
  · intro m
    cases hfired : (s.nodes n).wakers.fired with
    | false =>
      rw [register_parked s th n slot hfired]
      exact setWakers_fired s n m rfl
    | true =>
      rw [register_fired s th n slot hfired]
      exact setWakers_fired s n m rfl
  · intro m hm hempty
    by_cases hmn : m = n
    · rw [hmn] at hm hempty ⊢
      rw [register_fired s th n slot hm]
      exact (congrArg WakerSlots.slots (setWakers_same s n n)).trans hempty
    · rw [hrest m hmn]
      exact hempty

theorem refreshTask_draining (h : Draining s) (hids : ∀ n, ((s.nodes n).wakers.slots.map Parked.id).Nodup)
    (th : ℕ) {n : ℕ} (hn : n < s.count) (id : ℕ) (waker : W) :
    Draining (s.refreshTask th n id waker) := by
  have hsame := refreshTask_sameTree s th n id waker
  obtain ⟨hslots, -, hfired⟩ := refreshTask_wakers s th n id waker (hids n)
  refine draining_kept h (Nat.le_of_eq hsame.count.symm) ?_ ?_ ?_ hsame.flag
    fun m => runs_refreshTask s th n id waker
  · intro m hm
    rw [hsame.count] at hm
    rw [refreshTask_rest s th n id waker (by omega)]
  · intro m
    by_cases hmn : m = n
    · rw [hmn, hfired]
    · rw [refreshTask_rest s th n id waker hmn]
  · intro m hm hempty
    by_cases hmn : m = n
    · rw [hmn] at hempty
      rw [hmn, hslots, hempty]
      rfl
    · rw [refreshTask_rest s th n id waker hmn]
      exact hempty

theorem unregister_draining (h : Draining s) {n : ℕ} (hn : n < s.count) (id : ℕ) :
    Draining (s.unregister n id) := by
  have hsame : SameTree s (s.unregister n id) := sameTree_wakers (n := n) rfl rfl
  refine draining_kept h (Nat.le_refl _) ?_ (fun m => setWakers_fired s n m rfl) ?_ hsame.flag
    fun m hm => hm
  · intro m hm
    rw [unregister_rest s n id (Nat.ne_of_gt (Nat.lt_of_lt_of_le hn hm))]
  · intro m hm hempty
    by_cases hmn : m = n
    · rw [hmn] at hempty
      rw [hmn, unregister_wakers, WakerSlots.unregister, hempty]
      rfl
    · rw [unregister_rest s n id hmn]
      exact hempty

theorem step_slotsKept {place : ℕ → Place} (hp : Propagating s) (hr : Requesting s)
    (h : Placed s place) (hd : Draining s) {e : Event W F} (hstep : Step s e t) :
    (∃ place', Placed t place') ∧ Draining t := by
  obtain ⟨he, rfl⟩ := hstep
  cases e with
  | root =>
    have hg := root_grown s
    exact ⟨⟨place, grown_placed h hd hg rfl rfl rfl rfl⟩, grown_draining hd hg rfl rfl⟩
  | child p =>
    have hg := child_grown hp he
    exact ⟨⟨place, grown_placed h hd hg rfl rfl rfl rfl⟩, grown_draining hd hg rfl rfl⟩
  | cancel th n =>
    have hwakers : ∀ m, ((next s (.cancel th n)).nodes m).wakers = (s.nodes m).wakers :=
      fun m => rfl
    refine ⟨⟨place, ?_⟩, wakers_draining hd rfl (fun m => rfl) hwakers ?_⟩
    · exact placed_kept h (fun m => rfl) (fun m => rfl) (fun m hm => hm) rfl rfl
        fun other => pending_begin s th other (.swap n) rfl
    · exact fun m hm => runs_begin.mpr (.inr hm)
  | register th n slot =>
    refine ⟨?_, register_draining hd th (live_below hp he.2.2) slot⟩
    cases hfired : (s.nodes n).wakers.fired with
    | false => exact ⟨_, parked_placed h th n slot hfired⟩
    | true => exact ⟨_, late_placed h th n slot hfired⟩
  | refreshTask th n id waker =>
    exact ⟨⟨place, refreshTask_placed h hd th n id waker⟩,
      refreshTask_draining hd h.slotIds th (live_below hp he.2.2) id waker⟩
  | unregister n id =>
    exact ⟨unregister_placed h hd n id, unregister_draining hd (live_below hp he) id⟩
  | drop n =>
    have hwakers : ∀ m, ((next s (.drop n : Event W F)).nodes m).wakers = (s.nodes m).wakers :=
      fun m => edit_field s n m (fun node => { node with live := false }) Node.wakers fun _ => rfl
    have hflag : ∀ m, ((next s (.drop n : Event W F)).nodes m).flag = (s.nodes m).flag :=
      fun m => edit_field s n m (fun node => { node with live := false }) Node.flag fun _ => rfl
    refine ⟨⟨place, ?_⟩, wakers_draining hd rfl hflag hwakers fun m hm => hm⟩
    exact placed_kept h (fun m => by rw [hwakers]) (fun m => by rw [hwakers])
      (fun m hm => by rw [hwakers]; exact hm) rfl rfl fun other => rfl
  | step th => exact step_placed h hd hr he

theorem reachable_slotsKept (h : Reachable s) : (∃ place, Placed s place) ∧ Draining s := by
  induction h with
  | initial workers =>
    refine ⟨⟨fun _ => .parked, ?_⟩, ?_⟩
    · refine ⟨fun n => List.nodup_nil, ?_, ?_, fun th => List.nodup_nil, ?_, List.nodup_nil, ?_, ?_⟩
      · exact fun n p hp => absurd hp List.not_mem_nil
      · exact fun n p hp => absurd hp List.not_mem_nil
      · exact fun th entry hentry => absurd hentry List.not_mem_nil
      · exact fun entry hentry => absurd hentry List.not_mem_nil
      · intro key r hr
        cases hr
    · exact ⟨fun n _ => rfl, fun n hn => absurd hn Bool.false_ne_true,
        fun n hn => absurd hn Bool.false_ne_true⟩
  | step hs hstep ih =>
    obtain ⟨⟨place, hplaced⟩, hd⟩ := ih
    obtain ⟨hp, hr⟩ := reachable_treeKept hs
    exact step_slotsKept hp hr hplaced hd hstep

end CancelTree

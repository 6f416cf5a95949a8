import Kithara.DownloadSlots

/-! Where a pass over the queued commands puts each of them. The slots are rebuilt while they are
read, so everything is said of the commands as they lay before the pass, slot by slot. -/
namespace DownloadSlots

namespace Slots

variable {slots : Slots} {probes : Probes} {slot k : Slot} {entry : SlotEntry}

def removed (probes : Probes) (entry : SlotEntry) : Bool :=
  probes.cancelled entry || entry.peer.any fun peer => (probes.peerPriority entry peer).isNone

/-- The slot of a command's current priorities; one without a peer has none and stays. -/
def home (probes : Probes) (slot : Slot) (entry : SlotEntry) : Slot :=
  match entry.peer with
  | none => slot
  | some peer =>
    slotIndex ((probes.peerPriority entry peer).getD .low)
      (effectivePriority entry (probes.demanded entry))

theorem fate_removed (h : removed probes entry = true) : fate probes slot entry = .dropped := by
  unfold removed at h
  unfold fate
  cases hcancelled : probes.cancelled entry with
  | true => exact if_pos rfl
  | false =>
    rw [hcancelled, Bool.false_or] at h
    rw [if_neg Bool.false_ne_true]
    cases hpeer : entry.peer with
    | none =>
      rw [hpeer] at h
      cases h
    | some peer =>
      rw [hpeer, Option.any_some, Option.isNone_iff_eq_none] at h
      simp only [h]

theorem fate_kept (h : removed probes entry = false) : fate probes slot entry =
    if home probes slot entry = slot then .keep
    else if home probes slot entry < slot then .escalated (home probes slot entry)
    else .demoted (home probes slot entry) := by
  unfold removed at h
  obtain ⟨hcancelled, hpresent⟩ := Bool.or_eq_false_iff.mp h
  unfold fate home
  rw [hcancelled, if_neg Bool.false_ne_true]
  cases hpeer : entry.peer with
  | none => exact (if_pos rfl).symm
  | some peer =>
    rw [hpeer, Option.any_some] at hpresent
    cases hpriority : probes.peerPriority entry peer with
    | none =>
      rw [hpriority] at hpresent
      cases hpresent
    | some priority => simp only [hpriority, Option.getD_some]

def bound (probes : Probes) (slot k : Slot) (entries : List SlotEntry) : List SlotEntry :=
  entries.filter fun entry => !removed probes entry && decide (home probes slot entry = k)

/-- The moves a slot adds to a list of moves, those to `k` picked out. -/
def movedTo (k : Slot) (moves : List (Slot × SlotEntry)) : List SlotEntry :=
  (moves.filter fun move => decide (move.1 = k)).map Prod.snd

theorem movedTo_append (k : Slot) (moves more : List (Slot × SlotEntry)) :
    movedTo k (moves ++ more) = movedTo k moves ++ movedTo k more := by
  rw [movedTo, List.filter_append, List.map_append]
  rfl

theorem movedTo_single (k c : Slot) (entry : SlotEntry) :
    movedTo k [(c, entry)] = if c = k then [entry] else [] := by
  rw [movedTo, List.filter_singleton]
  by_cases h : c = k
  · simp [h]
  · simp [h]

/-- What the pass has in hand after the entries of one slot, against what it had before. -/
structure Scanned (probes : Probes) (slot : Slot) (entries : List SlotEntry)
    (before after : Pass) : Prop where
  here : after.slots slot = before.slots slot ++ bound probes slot slot entries
  others : ∀ k, k ≠ slot → after.slots k = before.slots k
  escalated : ∀ k, movedTo k after.escalated =
    movedTo k before.escalated ++ if k < slot then bound probes slot k entries else []
  demoted : ∀ k, movedTo k after.demoted =
    movedTo k before.demoted ++ if slot < k then bound probes slot k entries else []
  cancelled : after.cancelled = before.cancelled ++ entries.filter (removed probes)

theorem scanned_nil (probes : Probes) (slot : Slot) (pass : Pass) :
    Scanned probes slot [] pass pass := by
  refine ⟨?_, fun k _ => rfl, fun k => ?_, fun k => ?_, ?_⟩
  · exact (List.append_nil _).symm
  · simp [bound]
  · simp [bound]
  · simp

theorem bound_cons (k : Slot) (entries : List SlotEntry) : bound probes slot k (entry :: entries) =
    bound probes slot k [entry] ++ bound probes slot k entries := by
  rw [bound, ← List.singleton_append, List.filter_append]
  rfl

theorem bound_single (k : Slot) : bound probes slot k [entry] =
    if removed probes entry = false ∧ home probes slot entry = k then [entry] else [] := by
  rw [bound, List.filter_singleton]
  cases removed probes entry with
  | true => simp
  | false => simp

theorem scanned_entry (probes : Probes) (slot : Slot) (pass : Pass) (entry : SlotEntry) :
    Scanned probes slot [entry] pass (passEntry probes slot pass entry) := by
  unfold passEntry
  cases hremoved : removed probes entry with
  | true =>
    rw [fate_removed hremoved]
    have hnone : ∀ k, bound probes slot k [entry] = [] := by
      intro k
      rw [bound_single, hremoved]
      exact if_neg (by simp)
    refine ⟨?_, fun k _ => rfl, fun k => ?_, fun k => ?_, ?_⟩
    · rw [hnone, List.append_nil]
    · rw [hnone, ite_self, List.append_nil]
    · rw [hnone, ite_self, List.append_nil]
    · rw [List.filter_singleton, hremoved]
      rfl
  | false =>
    rw [fate_kept hremoved]
    have hcancelled : [entry].filter (removed probes) = [] := by
      rw [List.filter_singleton, hremoved]
      rfl
    have hbound : ∀ k, bound probes slot k [entry] =
        if home probes slot entry = k then [entry] else [] := by
      intro k
      rw [bound_single, hremoved]
      simp
    by_cases hstay : home probes slot entry = slot
    · rw [if_pos hstay]
      dsimp only
      have hnone : ∀ k, k ≠ slot → bound probes slot k [entry] = [] := by
        intro k hk
        rw [hbound, if_neg fun h => hk (h.symm.trans hstay)]
      refine ⟨?_, fun k hk => ?_, fun k => ?_, fun k => ?_, ?_⟩
      · rw [hbound, if_pos hstay]
        exact Function.update_self ..
      · exact Function.update_of_ne hk ..
      · split
        · next hlt => rw [hnone k hlt.ne, List.append_nil]
        · exact (List.append_nil _).symm
      · split
        · next hlt => rw [hnone k hlt.ne', List.append_nil]
        · exact (List.append_nil _).symm
      · rw [hcancelled, List.append_nil]
    · rw [if_neg hstay]
      have hhere : bound probes slot slot [entry] = [] := by rw [hbound, if_neg hstay]
      by_cases hup : home probes slot entry < slot
      · rw [if_pos hup]
        dsimp only
        refine ⟨?_, fun k _ => rfl, fun k => ?_, fun k => ?_, ?_⟩
        · rw [hhere, List.append_nil]
        · rw [movedTo_append, movedTo_single, hbound]
          by_cases hk : home probes slot entry = k
          · rw [if_pos hk, if_pos (hk ▸ hup)]
          · rw [if_neg hk, ite_self]
        · split
          · next hlt =>
            have hne : home probes slot entry ≠ k := (hup.trans hlt).ne
            rw [hbound, if_neg hne, List.append_nil]
          · exact (List.append_nil _).symm
        · rw [hcancelled, List.append_nil]
      · rw [if_neg hup]
        dsimp only
        have hdown : slot < home probes slot entry :=
          lt_of_le_of_ne (not_lt.mp hup) (Ne.symm hstay)
        refine ⟨?_, fun k _ => rfl, fun k => ?_, fun k => ?_, ?_⟩
        · rw [hhere, List.append_nil]
        · split
          · next hlt =>
            have hne : home probes slot entry ≠ k := (hlt.trans hdown).ne'
            rw [hbound, if_neg hne, List.append_nil]
          · exact (List.append_nil _).symm
        · rw [movedTo_append, movedTo_single, hbound]
          by_cases hk : home probes slot entry = k
          · rw [if_pos hk, if_pos (hk ▸ hdown)]
          · rw [if_neg hk, ite_self]
        · rw [hcancelled, List.append_nil]

theorem scanned_cons {entries : List SlotEntry} {before middle after : Pass}
    (hfirst : Scanned probes slot [entry] before middle)
    (hrest : Scanned probes slot entries middle after) :
    Scanned probes slot (entry :: entries) before after where
  here := by rw [hrest.here, hfirst.here, bound_cons slot entries, List.append_assoc]
  others := fun k hk => (hrest.others k hk).trans (hfirst.others k hk)
  escalated := by
    intro k
    rw [hrest.escalated, hfirst.escalated, List.append_assoc]
    split
    · rw [← bound_cons k entries]
    · rfl
  demoted := by
    intro k
    rw [hrest.demoted, hfirst.demoted, List.append_assoc]
    split
    · rw [← bound_cons k entries]
    · rfl
  cancelled := by
    rw [hrest.cancelled, hfirst.cancelled, List.append_assoc, ← List.filter_append,
      List.singleton_append]

theorem scanned_entries (probes : Probes) (slot : Slot) (pass : Pass) (entries : List SlotEntry) :
    Scanned probes slot entries pass (entries.foldl (passEntry probes slot) pass) := by
  induction entries generalizing pass with
  | nil => exact scanned_nil probes slot pass
  | cons entry entries ih => exact scanned_cons (scanned_entry probes slot pass entry) (ih _)

def sent (probes : Probes) (slots : Slots) (k : Slot) (order : List Slot) : List SlotEntry :=
  order.flatMap fun slot => bound probes slot k (slots slot)

/-- The slots passed over so far are rebuilt, and their moves lie in the lists. -/
structure Passed (probes : Probes) (slots : Slots) (order : List Slot) (pass : Pass) : Prop where
  rebuilt : ∀ k ∈ order, pass.slots k = bound probes k k (slots k)
  untouched : ∀ k, k ∉ order → pass.slots k = slots k
  escalated : ∀ k, movedTo k pass.escalated =
    sent probes slots k (order.filter fun slot => decide (k < slot))
  demoted : ∀ k, movedTo k pass.demoted =
    sent probes slots k (order.filter fun slot => decide (slot < k))
  cancelled : pass.cancelled = order.flatMap fun slot => (slots slot).filter (removed probes)

theorem sent_snoc (probes : Probes) (slots : Slots) (k slot : Slot) (order : List Slot)
    (p : Slot → Bool) : sent probes slots k ((order ++ [slot]).filter p) =
      sent probes slots k (order.filter p) ++
        if p slot = true then bound probes slot k (slots slot) else [] := by
  rw [List.filter_append, sent, List.flatMap_append, List.filter_singleton]
  cases p slot with
  | true => exact congrArg (_ ++ ·) (List.append_nil _)
  | false => rfl

theorem passed_snoc {order : List Slot} {pass : Pass} (h : Passed probes slots order pass)
    (hslot : slot ∉ order) : Passed probes slots (order ++ [slot]) (passSlot probes pass slot) := by
  have hscan := scanned_entries probes slot
    { pass with slots := Function.update pass.slots slot [] } (pass.slots slot)
  have hlay := h.untouched slot hslot
  rw [hlay] at hscan
  rw [passSlot, hlay]
  refine ⟨?_, ?_, ?_, ?_, ?_⟩
  · intro k hk
    rcases List.mem_append.mp hk with hk | hk
    · have hne : k ≠ slot := fun heq => hslot (heq ▸ hk)
      rw [hscan.others k hne]
      exact (Function.update_of_ne hne ..).trans (h.rebuilt k hk)
    · rw [List.mem_singleton.mp hk, hscan.here]
      exact congrArg (· ++ _) (Function.update_self slot [] pass.slots)
  · intro k hk
    have hne : k ≠ slot := fun heq => hk (by simp [heq])
    rw [hscan.others k hne]
    exact (Function.update_of_ne hne ..).trans
      (h.untouched k fun hmem => hk (List.mem_append_left _ hmem))
  · intro k
    rw [hscan.escalated, h.escalated, sent_snoc]
    simp only [decide_eq_true_eq]
  · intro k
    rw [hscan.demoted, h.demoted, sent_snoc]
    simp only [decide_eq_true_eq]
  · rw [hscan.cancelled, h.cancelled, List.flatMap_append]
    exact congrArg (_ ++ ·) (List.append_nil _).symm

theorem passed_all (probes : Probes) (slots : Slots) (order : List Slot) (h : order.Nodup) :
    Passed probes slots order (order.foldl (passSlot probes)
      { slots := slots, escalated := [], demoted := [], cancelled := [] }) := by
  induction order using List.reverseRecOn with
  | nil =>
    exact ⟨by simp, fun k _ => rfl, fun k => rfl, fun k => rfl, rfl⟩
  | append_singleton order slot ih =>
    rw [List.nodup_append] at h
    have hslot : slot ∉ order := fun hmem => h.2.2 slot hmem slot (List.mem_singleton.mpr rfl) rfl
    rw [List.foldl_append]
    exact passed_snoc (ih h.1) hslot

theorem pushBacks_slot (slots : Slots) (moves : List (Slot × SlotEntry)) (k : Slot) :
    moves.foldl (fun slots move => slots.pushBack move.1 move.2) slots k =
      slots k ++ movedTo k moves := by
  induction moves generalizing slots with
  | nil => exact (List.append_nil _).symm
  | cons move moves ih =>
    rw [List.foldl_cons, ih, ← List.singleton_append, movedTo_append, ← Prod.mk.eta (p := move),
      movedTo_single, ← List.append_assoc]
    congr 1
    by_cases hk : move.1 = k
    · rw [if_pos hk, ← hk]
      exact Function.update_self ..
    · rw [if_neg hk, List.append_nil]
      exact Function.update_of_ne (Ne.symm hk) ..

theorem pushFronts_slot (slots : Slots) (moves : List (Slot × SlotEntry)) (k : Slot) :
    moves.reverse.foldl (fun slots move => slots.pushFront move.1 move.2) slots k =
      movedTo k moves ++ slots k := by
  rw [List.foldl_reverse]
  induction moves with
  | nil => rfl
  | cons move moves ih =>
    rw [List.foldr_cons, ← List.singleton_append, movedTo_append, ← Prod.mk.eta (p := move),
      movedTo_single, List.append_assoc, ← ih]
    by_cases hk : move.1 = k
    · rw [if_pos hk, ← hk]
      exact Function.update_self ..
    · rw [if_neg hk]
      exact Function.update_of_ne (Ne.symm hk) ..

/-- A slot after the pass: what came up into it from the slots behind, what stayed, and what came
down from the slots before, each as it lay. -/
theorem reschedule_slot (slots : Slots) (probes : Probes) (k : Slot) :
    (slots.reschedule probes).1 k =
      sent probes slots k ((List.finRange 4).filter fun slot => decide (k < slot)) ++
        bound probes k k (slots k) ++
        sent probes slots k ((List.finRange 4).filter fun slot => decide (slot < k)) := by
  have hpassed := passed_all probes slots (List.finRange 4) (List.nodup_finRange 4)
  rw [reschedule]
  dsimp only
  rw [pushFronts_slot, pushBacks_slot, hpassed.escalated, hpassed.demoted,
    hpassed.rebuilt k (List.mem_finRange k), List.append_assoc]

theorem requeuePending_slot (slots : Slots) (pending : List SlotEntry) (probes : Probes)
    (k : Slot) : slots.requeuePending pending probes k =
      (pending.filter fun entry => decide (requeueSlot probes entry = k)) ++ slots k := by
  have hmoves := pushFronts_slot slots
    (pending.map fun entry => (requeueSlot probes entry, entry)) k
  rw [← List.map_reverse, List.foldl_map] at hmoves
  rw [requeuePending, hmoves, movedTo, List.filter_map, List.map_map]
  congr 1
  exact List.map_id' _

theorem reschedule_removed (slots : Slots) (probes : Probes) : (slots.reschedule probes).2 =
    (List.finRange 4).flatMap fun slot => (slots slot).filter (removed probes) :=
  (passed_all probes slots (List.finRange 4) (List.nodup_finRange 4)).cancelled

theorem mem_bound {entries : List SlotEntry} (h : entry ∈ bound probes slot k entries) :
    entry ∈ entries ∧ removed probes entry = false ∧ home probes slot entry = k := by
  simpa [bound] using h

theorem reschedule_home (h : entry ∈ (slots.reschedule probes).1 k) :
    removed probes entry = false ∧ ∃ slot, entry ∈ slots slot ∧ home probes slot entry = k := by
  have hfrom : ∃ slot, entry ∈ bound probes slot k (slots slot) := by
    rw [reschedule_slot, List.mem_append, List.mem_append] at h
    rcases h with (h | h) | h
    · obtain ⟨slot, -, hmem⟩ := List.mem_flatMap.mp h
      exact ⟨slot, hmem⟩
    · exact ⟨k, h⟩
    · obtain ⟨slot, -, hmem⟩ := List.mem_flatMap.mp h
      exact ⟨slot, hmem⟩
  obtain ⟨slot, hmem⟩ := hfrom
  obtain ⟨hentry, hkept, hhome⟩ := mem_bound hmem
  exact ⟨hkept, slot, hentry, hhome⟩

theorem home_of_peer (slot : Slot) {peer : ℕ} (hpeer : entry.peer = some peer)
    (hkept : removed probes entry = false) : ∃ priority,
      probes.peerPriority entry peer = some priority ∧ home probes slot entry =
        slotIndex priority (effectivePriority entry (probes.demanded entry)) := by
  have hpresent := (Bool.or_eq_false_iff.mp hkept).2
  rw [hpeer, Option.any_some] at hpresent
  cases hpriority : probes.peerPriority entry peer with
  | none =>
    rw [hpriority] at hpresent
    cases hpresent
  | some priority =>
    refine ⟨priority, rfl, ?_⟩
    simp only [home, hpeer, hpriority, Option.getD_some]

/-- For every content and every answer of the probes. A slot holds what came up into it from the
slots behind, then what stayed, then what came down from the slots before, each in the order of
the scan; what is removed is what is cancelled or has lost its peer; and what is left of a peer
stands where its priorities say. A tail put back stands in front of its slots as it stood. -/
theorem rescheduled_in_order (slots : Slots) (probes : Probes) :
    (∀ k, (slots.reschedule probes).1 k =
      sent probes slots k ((List.finRange 4).filter fun slot => decide (k < slot)) ++
        bound probes k k (slots k) ++
        sent probes slots k ((List.finRange 4).filter fun slot => decide (slot < k))) ∧
    (slots.reschedule probes).2 =
      (List.finRange 4).flatMap (fun slot => (slots slot).filter (removed probes)) ∧
    (∀ k, ∀ entry ∈ (slots.reschedule probes).1 k, ∀ peer, entry.peer = some peer →
      ∃ priority, probes.peerPriority entry peer = some priority ∧
        k = slotIndex priority (effectivePriority entry (probes.demanded entry))) ∧
    (∀ k, ∀ entry ∈ (slots.reschedule probes).1 k, entry.peer = none → entry ∈ slots k) ∧
    ∀ pending k, slots.requeuePending pending probes k =
      (pending.filter fun entry => decide (requeueSlot probes entry = k)) ++ slots k := by
  refine ⟨reschedule_slot slots probes, reschedule_removed slots probes, ?_, ?_,
    fun pending k => requeuePending_slot slots pending probes k⟩
  · intro k entry hentry peer hpeer
    obtain ⟨hkept, slot, -, hhome⟩ := reschedule_home hentry
    obtain ⟨priority, hpriority, hplace⟩ := home_of_peer slot hpeer hkept
    exact ⟨priority, hpriority, hhome.symm.trans hplace⟩
  · intro k entry hentry hpeer
    obtain ⟨-, slot, hmem, hhome⟩ := reschedule_home hentry
    have hstay : home probes slot entry = slot := by
      rw [home, hpeer]
    rwa [← hhome, hstay]

end Slots

end DownloadSlots

import Mathlib.Algebra.BigOperators.Fin
import Mathlib.Algebra.Order.Group.Multiset
import Mathlib.Tactic.Abel

/-! The downloader's four priority slots: enqueueing, taking a batch out, putting its tail back,
and rescheduling what is queued. Demand, priorities and cancellation are read from the world when
a pass looks at a command, so a pass takes them as functions of the command. -/
namespace DownloadSlots

inductive RequestPriority where
  | high
  | low
  deriving DecidableEq, Repr

inductive ResponseTarget where
  | channel
  | streaming
  deriving DecidableEq, Repr

/-- A queued command. Its writer and completion handler are closures, known by their presence. -/
structure SlotEntry where
  requestId : ℕ
  peer : Option ℕ
  priority : RequestPriority
  response : ResponseTarget
  writer : Bool
  onComplete : Bool
  deriving DecidableEq, Repr

abbrev Slot := Fin 4

def slotIndex (peerPrio cmdPrio : RequestPriority) : Slot :=
  match peerPrio, cmdPrio with
  | .high, .high => 0
  | .high, .low => 1
  | .low, .high => 2
  | .low, .low => 3

def effectivePriority (entry : SlotEntry) (demanded : Bool) : RequestPriority :=
  if demanded then .high else entry.priority

abbrev Slots := Slot → List SlotEntry

namespace Slots

def empty : Slots := fun _ => []

def pushBack (slots : Slots) (slot : Slot) (entry : SlotEntry) : Slots :=
  Function.update slots slot (slots slot ++ [entry])

def pushFront (slots : Slots) (slot : Slot) (entry : SlotEntry) : Slots :=
  Function.update slots slot (entry :: slots slot)

def len (slots : Slots) : ℕ := ∑ slot, (slots slot).length

def hasWork (slots : Slots) : Bool := (List.finRange 4).any fun slot => !(slots slot).isEmpty

def enqueue (slots : Slots) (slot : Slot) (entry : SlotEntry) : Slots := slots.pushBack slot entry

def inRange (lo hi : ℕ) (slot : Slot) : Bool := lo ≤ slot.val && slot.val < hi

/-- Drains the slots of the range, the urgent ones first. -/
def take (slots : Slots) (lo hi : ℕ) : List SlotEntry × Slots :=
  ((List.finRange 4).flatMap fun slot => if inRange lo hi slot then slots slot else [],
    fun slot => if inRange lo hi slot then [] else slots slot)

/-- What a pass reads of the world for a command: its cancellation, its peer's priority (none
once the peer is gone) and the live demand probe. -/
structure Probes where
  cancelled : SlotEntry → Bool
  peerPriority : SlotEntry → ℕ → Option RequestPriority
  demanded : SlotEntry → Bool

/-- A command without a live peer goes back at low peer priority. -/
def requeueSlot (probes : Probes) (entry : SlotEntry) : Slot :=
  slotIndex ((entry.peer.bind (probes.peerPriority entry)).getD .low)
    (effectivePriority entry (probes.demanded entry))

def requeuePending (slots : Slots) (pending : List SlotEntry) (probes : Probes) : Slots :=
  pending.reverse.foldl
    (fun slots entry => slots.pushFront (requeueSlot probes entry) entry) slots

inductive Fate where
  | keep
  | dropped
  | escalated (slot : Slot)
  | demoted (slot : Slot)
  deriving DecidableEq

def fate (probes : Probes) (slot : Slot) (entry : SlotEntry) : Fate :=
  if probes.cancelled entry then .dropped
  else match entry.peer with
    | none => .keep
    | some peer => match probes.peerPriority entry peer with
      | none => .dropped
      | some priority =>
        let correct := slotIndex priority (effectivePriority entry (probes.demanded entry))
        if correct = slot then .keep
        else if correct < slot then .escalated correct
        else .demoted correct

/-- What the pass over one slot leaves: the slot rebuilt and the two lists of moves, with the
commands whose cancellation it delivered. -/
structure Pass where
  slots : Slots
  escalated : List (Slot × SlotEntry)
  demoted : List (Slot × SlotEntry)
  cancelled : List SlotEntry

def passEntry (probes : Probes) (slot : Slot) (pass : Pass) (entry : SlotEntry) : Pass :=
  match fate probes slot entry with
  | .keep => { pass with slots := pass.slots.pushBack slot entry }
  | .dropped => { pass with cancelled := pass.cancelled ++ [entry] }
  | .escalated correct => { pass with escalated := pass.escalated ++ [(correct, entry)] }
  | .demoted correct => { pass with demoted := pass.demoted ++ [(correct, entry)] }

def passSlot (probes : Probes) (pass : Pass) (slot : Slot) : Pass :=
  (pass.slots slot).foldl (passEntry probes slot)
    { pass with slots := Function.update pass.slots slot [] }

/-- Demotions go to the back of their slot, escalations to its front in the order scanned. -/
def reschedule (slots : Slots) (probes : Probes) : Slots × List SlotEntry :=
  let pass := (List.finRange 4).foldl (passSlot probes)
    { slots := slots, escalated := [], demoted := [], cancelled := [] }
  let demoted := pass.demoted.foldl (fun slots move => slots.pushBack move.1 move.2) pass.slots
  (pass.escalated.reverse.foldl (fun slots move => slots.pushFront move.1 move.2) demoted,
    pass.cancelled)

/-- Empties the slots in order; each command is delivered its cancellation. -/
def cancelAll (slots : Slots) : List SlotEntry × Slots :=
  ((List.finRange 4).flatMap slots, empty)

def content (slots : Slots) : Multiset SlotEntry := ∑ slot, (slots slot : Multiset SlotEntry)

theorem content_update (slots : Slots) (slot : Slot) (entries : List SlotEntry) :
    content (Function.update slots slot entries) + (slots slot : Multiset SlotEntry) =
      content slots + (entries : Multiset SlotEntry) := by
  have hrest (f : Slots) : content f = (f slot : Multiset SlotEntry) +
      ∑ other ∈ Finset.univ.erase slot, (f other : Multiset SlotEntry) :=
    (Finset.add_sum_erase _ _ (Finset.mem_univ slot)).symm
  have hsame : ∑ other ∈ Finset.univ.erase slot,
      (Function.update slots slot entries other : Multiset SlotEntry) =
      ∑ other ∈ Finset.univ.erase slot, (slots other : Multiset SlotEntry) := by
    refine Finset.sum_congr rfl fun other hother => ?_
    rw [Function.update_of_ne (Finset.ne_of_mem_erase hother)]
  rw [hrest (Function.update slots slot entries), hrest slots, hsame, Function.update_self]
  abel

theorem content_pushBack (slots : Slots) (slot : Slot) (entry : SlotEntry) :
    content (slots.pushBack slot entry) = entry ::ₘ content slots := by
  have h := content_update slots slot (slots slot ++ [entry])
  rw [← Multiset.coe_add, ← add_assoc, Multiset.coe_singleton] at h
  rw [← Multiset.singleton_add]
  apply add_right_cancel (b := (slots slot : Multiset SlotEntry))
  rw [pushBack, h]
  abel

theorem content_pushFront (slots : Slots) (slot : Slot) (entry : SlotEntry) :
    content (slots.pushFront slot entry) = entry ::ₘ content slots := by
  have h := content_update slots slot (entry :: slots slot)
  rw [← Multiset.cons_coe, ← Multiset.singleton_add] at h
  rw [← Multiset.singleton_add]
  apply add_right_cancel (b := (slots slot : Multiset SlotEntry))
  rw [pushFront, h]
  abel

theorem content_empty : content empty = 0 := by simp [content, empty]

theorem content_foldl {α : Type*} {push : Slots → α → Slots} (entry : α → SlotEntry)
    (h : ∀ slots x, content (push slots x) = entry x ::ₘ content slots) (slots : Slots)
    (moves : List α) :
    content (moves.foldl push slots) = (moves.map entry : Multiset SlotEntry) + content slots := by
  induction moves generalizing slots with
  | nil => exact (zero_add _).symm
  | cons move moves ih =>
    rw [List.foldl_cons, ih, h, List.map_cons, ← Multiset.cons_coe, Multiset.cons_add,
      Multiset.add_cons]

theorem content_flatMap (slots : Slots) :
    ((List.finRange 4).flatMap slots : Multiset SlotEntry) = content slots := by
  simp only [content, Fin.sum_univ_four]
  simp [List.finRange_succ, ← Multiset.coe_add, add_assoc]

theorem content_take (slots : Slots) (lo hi : ℕ) :
    ((slots.take lo hi).1 : Multiset SlotEntry) + content (slots.take lo hi).2 =
      content slots := by
  have hin : ((slots.take lo hi).1 : Multiset SlotEntry) =
      content fun slot => if inRange lo hi slot then slots slot else [] :=
    content_flatMap fun slot => if inRange lo hi slot then slots slot else []
  rw [hin]
  simp only [content, take, ← Finset.sum_add_distrib]
  refine Finset.sum_congr rfl fun slot _ => ?_
  by_cases h : inRange lo hi slot = true
  · simp [h]
  · simp [h]

theorem content_requeuePending (slots : Slots) (pending : List SlotEntry) (probes : Probes) :
    content (slots.requeuePending pending probes) =
      (pending : Multiset SlotEntry) + content slots := by
  have h := content_foldl id
    (fun slots entry => content_pushFront slots (requeueSlot probes entry) entry) slots
    pending.reverse
  rw [List.map_id, Multiset.coe_reverse] at h
  exact h

theorem content_cancelAll (slots : Slots) :
    ((slots.cancelAll).1 : Multiset SlotEntry) = content slots := content_flatMap slots

def Pass.content (pass : Pass) : Multiset SlotEntry :=
  Slots.content pass.slots + (pass.escalated.map Prod.snd : Multiset SlotEntry) +
    (pass.demoted.map Prod.snd : Multiset SlotEntry) + (pass.cancelled : Multiset SlotEntry)

theorem passEntry_content (probes : Probes) (slot : Slot) (pass : Pass) (entry : SlotEntry) :
    (passEntry probes slot pass entry).content = entry ::ₘ pass.content := by
  simp only [passEntry]
  rw [← Multiset.singleton_add]
  cases fate probes slot entry with
  | keep =>
    simp only [Pass.content, content_pushBack, ← Multiset.singleton_add]
    abel
  | dropped =>
    simp only [Pass.content, ← Multiset.coe_add, Multiset.coe_singleton]
    abel
  | escalated correct =>
    simp only [Pass.content, List.map_append, List.map_singleton, ← Multiset.coe_add,
      Multiset.coe_singleton]
    abel
  | demoted correct =>
    simp only [Pass.content, List.map_append, List.map_singleton, ← Multiset.coe_add,
      Multiset.coe_singleton]
    abel

theorem passSlot_content (probes : Probes) (pass : Pass) (slot : Slot) :
    (passSlot probes pass slot).content = pass.content := by
  have hfold (entries : List SlotEntry) (pass : Pass) :
      (entries.foldl (passEntry probes slot) pass).content =
        (entries : Multiset SlotEntry) + pass.content := by
    induction entries generalizing pass with
    | nil => exact (zero_add _).symm
    | cons entry entries ih =>
      rw [List.foldl_cons, ih, passEntry_content, ← Multiset.cons_coe, Multiset.cons_add,
        Multiset.add_cons]
  have hempty := content_update pass.slots slot []
  rw [Multiset.coe_nil, add_zero] at hempty
  rw [passSlot, hfold]
  simp only [Pass.content, ← hempty]
  abel

/-- A pass loses no command and makes none. -/
theorem reschedule_content (slots : Slots) (probes : Probes) :
    content (slots.reschedule probes).1 + ((slots.reschedule probes).2 : Multiset SlotEntry) =
      content slots := by
  have hpasses (order : List Slot) (pass : Pass) :
      (order.foldl (passSlot probes) pass).content = pass.content := by
    induction order generalizing pass with
    | nil => rfl
    | cons slot order ih => rw [List.foldl_cons, ih, passSlot_content]
  have h := hpasses (List.finRange 4)
    { slots := slots, escalated := [], demoted := [], cancelled := [] }
  simp only [reschedule]
  rw [content_foldl Prod.snd (fun slots move => content_pushFront slots move.1 move.2),
    content_foldl Prod.snd (fun slots move => content_pushBack slots move.1 move.2),
    List.map_reverse, Multiset.coe_reverse]
  simp only [Pass.content, List.map_nil, Multiset.coe_nil, add_zero] at h
  rw [← h]
  abel

end Slots

end DownloadSlots

import Kithara.DownloadSlots
import Kithara.TransitionSystem

/-! The download loop and its spawned fetches. A batch taken from the slots is processed command
by command while spawned fetches complete beside it; whatever ends a command delivers it, and its
completion handler is called there and nowhere else. -/
namespace DownloadRegistry

open DownloadSlots TransitionSystem

abbrev Headers := List (String × String)

inductive NetError where
  | cancelled
  | failed (message : String)
  deriving DecidableEq, Repr

/-- One call of the completion handler that a command carries. -/
structure Completion where
  command : SlotEntry
  bytes : ℕ
  headers : Option Headers
  error : Option NetError
  deriving DecidableEq, Repr

def callOnComplete (command : SlotEntry) (bytes : ℕ) (headers : Option Headers)
    (error : Option NetError) : List Completion :=
  if command.onComplete then
    [{ command := command, bytes := bytes, headers := headers, error := error }]
  else []

/-- Routes what a fetch came to: the response, and then the body written into the writer. -/
def deliver (command : SlotEntry) (result : Except NetError Headers)
    (written : Except NetError ℕ) : List Completion :=
  match command.response with
  | .channel => []
  | .streaming => match result with
    | .ok headers =>
      if command.writer then match written with
        | .ok total => callOnComplete command total (some headers) none
        | .error e => callOnComplete command 0 (some headers) (some e)
      else callOnComplete command 0 (some headers) none
    | .error e => callOnComplete command 0 none (some e)

def deliverCancelled (command : SlotEntry) : List Completion :=
  match command.response with
  | .channel => []
  | .streaming => callOnComplete command 0 none (some .cancelled)

structure BatchGroup where
  remaining : List SlotEntry
  pending : List SlotEntry
  dispatched : ℕ
  capacity : ℕ

/-- `running` are the spawned fetches still to be delivered, `finishing` those delivered that the
counter has not yet let go. -/
structure State where
  slots : Slots
  batch : Option BatchGroup
  running : List SlotEntry
  finishing : ℕ
  inflight : ℕ
  dropped : Bool
  enqueued : List SlotEntry
  settled : List SlotEntry
  calls : List Completion

def start : State where
  slots := .empty
  batch := none
  running := []
  finishing := 0
  inflight := 0
  dropped := false
  enqueued := []
  settled := []
  calls := []

inductive Action where
  | enqueue (slot : Slot) (command : SlotEntry)
  | reschedule (probes : Slots.Probes)
  | take (lo hi : ℕ)
  | processEntry (cancelled : Bool)
  | requeue (probes : Slots.Probes)
  | complete (task : ℕ) (result : Except NetError Headers) (written : Except NetError ℕ)
  | finish
  | cancelAll

def Idle (s : State) : Prop := s.batch = none ∧ s.dropped = false

def Enabled (s : State) : Action → Prop
  | .enqueue _ _ => Idle s
  | .reschedule _ => Idle s
  | .take _ _ => Idle s
  | .processEntry _ => ∃ b entry rest, s.batch = some b ∧ b.remaining = entry :: rest
  | .requeue _ => ∃ b, s.batch = some b ∧ b.remaining = []
  | .complete task _ _ => task < s.running.length
  | .finish => 0 < s.finishing
  | .cancelAll => Idle s

def cancel (s : State) (commands : List SlotEntry) : State :=
  { s with
    settled := s.settled ++ commands
    calls := s.calls ++ commands.flatMap deliverCancelled }

def next (maxConcurrent : ℕ) (s : State) : Action → State
  | .enqueue slot command =>
    { s with slots := s.slots.enqueue slot command, enqueued := s.enqueued ++ [command] }
  | .reschedule probes =>
    { cancel s (s.slots.reschedule probes).2 with slots := (s.slots.reschedule probes).1 }
  | .take lo hi =>
    { s with
      slots := (s.slots.take lo hi).2
      batch := some
        { remaining := (s.slots.take lo hi).1
          pending := []
          dispatched := 0
          capacity := maxConcurrent - s.inflight } }
  | .processEntry cancelled =>
    match s.batch with
    | none => s
    | some b => match b.remaining with
      | [] => s
      | command :: rest =>
        if cancelled then
          { cancel s [command] with batch := some { b with remaining := rest } }
        else if b.dispatched < b.capacity then
          { s with
            batch := some { b with remaining := rest, dispatched := b.dispatched + 1 }
            running := s.running ++ [command]
            inflight := s.inflight + 1 }
        else
          { s with batch := some { b with remaining := rest, pending := b.pending ++ [command] } }
  | .requeue probes =>
    match s.batch with
    | none => s
    | some b => { s with slots := s.slots.requeuePending b.pending probes, batch := none }
  | .complete task result written =>
    match s.running[task]? with
    | none => s
    | some command =>
      { s with
        running := s.running.eraseIdx task
        finishing := s.finishing + 1
        settled := s.settled ++ [command]
        calls := s.calls ++ deliver command result written }
  | .finish => { s with finishing := s.finishing - 1, inflight := s.inflight - 1 }
  | .cancelAll =>
    { cancel s s.slots.cancelAll.1 with slots := s.slots.cancelAll.2, dropped := true }

def machine (maxConcurrent : ℕ) : Machine State Action where
  Enabled := Enabled
  next := next maxConcurrent

/-- A streaming command with a handler is owed a call; a channel command learns through its
channel. -/
def owed (command : SlotEntry) : Bool := command.response = .streaming && command.onComplete

theorem callOnComplete_owed {command : SlotEntry} (h : command.response = .streaming) (bytes : ℕ)
    (headers : Option Headers) (error : Option NetError) :
    (callOnComplete command bytes headers error).map Completion.command =
      [command].filter owed := by
  cases hc : command.onComplete <;> simp [callOnComplete, owed, h, hc]

theorem channel_filter {command : SlotEntry} (h : command.response = .channel) :
    [command].filter owed = [] := by
  simp [owed, h]

/-- Every path of a delivery calls the handler once. -/
theorem deliver_calls (command : SlotEntry) (result : Except NetError Headers)
    (written : Except NetError ℕ) :
    (deliver command result written).map Completion.command = [command].filter owed := by
  simp only [deliver]
  cases hr : command.response with
  | channel => exact (channel_filter hr).symm
  | streaming =>
    cases result with
    | error e => exact callOnComplete_owed hr _ _ _
    | ok headers =>
      dsimp only
      split
      · cases written with
        | ok total => exact callOnComplete_owed hr _ _ _
        | error e => exact callOnComplete_owed hr _ _ _
      · exact callOnComplete_owed hr _ _ _

theorem deliverCancelled_calls (command : SlotEntry) :
    (deliverCancelled command).map Completion.command = [command].filter owed := by
  simp only [deliverCancelled]
  cases hr : command.response with
  | channel => exact (channel_filter hr).symm
  | streaming => exact callOnComplete_owed hr _ _ _

theorem cancelled_calls (commands : List SlotEntry) :
    (commands.flatMap deliverCancelled).map Completion.command = commands.filter owed := by
  induction commands with
  | nil => rfl
  | cons command commands ih =>
    rw [List.flatMap_cons, List.map_append, ih, deliverCancelled_calls, ← List.filter_append]
    rfl

/-- The commands inside the synchronous processing of a batch. -/
def batchContent : Option BatchGroup → Multiset SlotEntry
  | none => 0
  | some b => (b.remaining : Multiset SlotEntry) + (b.pending : Multiset SlotEntry)

def headroom : Option BatchGroup → ℕ
  | none => 0
  | some b => b.capacity - b.dispatched

structure Invariant (maxConcurrent : ℕ) (s : State) : Prop where
  conserved : (s.enqueued : Multiset SlotEntry) = s.slots.content + batchContent s.batch +
    (s.running : Multiset SlotEntry) + (s.settled : Multiset SlotEntry)
  called : s.calls.map Completion.command = s.settled.filter owed
  counted : s.inflight = s.running.length + s.finishing
  bounded : s.inflight + headroom s.batch ≤ maxConcurrent
  emptied : s.dropped = true → s.slots.content = 0 ∧ s.batch = none

theorem start_invariant (maxConcurrent : ℕ) : Invariant maxConcurrent start := by
  refine ⟨?_, rfl, rfl, Nat.zero_le _, fun h => by cases h⟩
  simp [start, Slots.content_empty, batchContent]

variable {maxConcurrent : ℕ} {s : State}

theorem cancel_called (h : Invariant maxConcurrent s) (commands : List SlotEntry) :
    (cancel s commands).calls.map Completion.command =
      (cancel s commands).settled.filter owed := by
  simp only [cancel, List.map_append, List.filter_append, h.called, cancelled_calls]

theorem enqueue_invariant (h : Invariant maxConcurrent s) (hi : Idle s) (slot : Slot)
    (command : SlotEntry) : Invariant maxConcurrent (next maxConcurrent s (.enqueue slot command)) := by
  refine ⟨?_, h.called, h.counted, h.bounded, fun hd => absurd (hi.2.symm.trans hd) (by decide)⟩
  simp only [next, Slots.enqueue, Slots.content_pushBack, ← Multiset.coe_add, h.conserved,
    Multiset.coe_singleton, ← Multiset.singleton_add]
  abel

theorem reschedule_invariant (h : Invariant maxConcurrent s) (hi : Idle s)
    (probes : Slots.Probes) :
    Invariant maxConcurrent (next maxConcurrent s (.reschedule probes)) := by
  refine ⟨?_, cancel_called h _, h.counted, h.bounded,
    fun hd => absurd (hi.2.symm.trans hd) (by decide)⟩
  simp only [next, cancel, h.conserved, ← Slots.reschedule_content s.slots probes,
    ← Multiset.coe_add]
  abel

theorem take_invariant (h : Invariant maxConcurrent s) (hi : Idle s) (lo hi' : ℕ) :
    Invariant maxConcurrent (next maxConcurrent s (.take lo hi')) := by
  have hb := h.bounded
  rw [hi.1] at hb
  refine ⟨?_, h.called, h.counted, ?_, fun hd => absurd (hi.2.symm.trans hd) (by decide)⟩
  · simp only [next, h.conserved, hi.1, batchContent, ← Slots.content_take s.slots lo hi',
      Multiset.coe_nil, add_zero]
    abel
  · simp only [next, headroom] at hb ⊢
    omega

theorem process_invariant (h : Invariant maxConcurrent s) (cancelled : Bool) :
    Invariant maxConcurrent (next maxConcurrent s (.processEntry cancelled)) := by
  have hconserved := h.conserved
  have hbounded := h.bounded
  simp only [next]
  cases hb : s.batch with
  | none => exact h
  | some b =>
    have hlive (hd : s.dropped = true) : False :=
      Option.some_ne_none b (hb.symm.trans (h.emptied hd).2)
    obtain ⟨remaining, pending, dispatched, capacity⟩ := b
    rw [hb] at hconserved hbounded
    cases remaining with
    | nil => exact h
    | cons command rest =>
      simp only [batchContent, headroom] at hconserved hbounded ⊢
      rw [← Multiset.cons_coe, ← Multiset.singleton_add] at hconserved
      by_cases hc : cancelled = true
      · rw [if_pos hc]
        refine ⟨?_, cancel_called h [command], h.counted, hbounded, fun hd => (hlive hd).elim⟩
        simp only [cancel, hconserved, batchContent, ← Multiset.coe_add, Multiset.coe_singleton]
        abel
      · rw [if_neg hc]
        by_cases hroom : dispatched < capacity
        · rw [if_pos hroom]
          refine ⟨?_, h.called, ?_, ?_, fun hd => (hlive hd).elim⟩
          · simp only [hconserved, batchContent, ← Multiset.coe_add, Multiset.coe_singleton]
            abel
          · simp only [h.counted, List.length_append, List.length_singleton]
            omega
          · simp only [headroom]
            omega
        · rw [if_neg hroom]
          refine ⟨?_, h.called, h.counted, hbounded, fun hd => (hlive hd).elim⟩
          simp only [hconserved, batchContent, ← Multiset.coe_add, Multiset.coe_singleton]
          abel

theorem requeue_invariant (h : Invariant maxConcurrent s) {b : BatchGroup} (hb : s.batch = some b)
    (hr : b.remaining = []) (probes : Slots.Probes) :
    Invariant maxConcurrent (next maxConcurrent s (.requeue probes)) := by
  have hconserved := h.conserved
  have hbounded := h.bounded
  rw [hb] at hconserved hbounded
  simp only [batchContent, hr, Multiset.coe_nil, zero_add] at hconserved
  simp only [next, hb]
  refine ⟨?_, h.called, h.counted, ?_, fun hd => ?_⟩
  · simp only [hconserved, Slots.content_requeuePending, batchContent]
    abel
  · simp only [headroom]
    omega
  · exact absurd (hb.symm.trans (h.emptied hd).2) (Option.some_ne_none b)

theorem complete_invariant (h : Invariant maxConcurrent s) (task : ℕ)
    (result : Except NetError Headers) (written : Except NetError ℕ) :
    Invariant maxConcurrent (next maxConcurrent s (.complete task result written)) := by
  simp only [next]
  cases ht : s.running[task]? with
  | none => exact h
  | some command =>
    obtain ⟨hlt, hget⟩ := List.getElem?_eq_some_iff.mp ht
    have hperm : (s.running : Multiset SlotEntry) =
        {command} + (s.running.eraseIdx task : Multiset SlotEntry) := by
      rw [← hget, Multiset.singleton_add, Multiset.cons_coe, Multiset.coe_eq_coe]
      exact (List.getElem_cons_eraseIdx_perm hlt).symm
    refine ⟨?_, ?_, ?_, h.bounded, h.emptied⟩
    · simp only [h.conserved, hperm, ← Multiset.coe_add, Multiset.coe_singleton]
      abel
    · simp only [List.map_append, List.filter_append, h.called, deliver_calls]
    · simp only [h.counted, List.length_eraseIdx_of_lt hlt]
      omega

theorem next_invariant (h : Invariant maxConcurrent s) {a : Action} (ha : Enabled s a) :
    Invariant maxConcurrent (next maxConcurrent s a) := by
  cases a with
  | enqueue slot command => exact enqueue_invariant h ha slot command
  | reschedule probes => exact reschedule_invariant h ha probes
  | take lo hi => exact take_invariant h ha lo hi
  | processEntry cancelled => exact process_invariant h cancelled
  | requeue probes =>
    obtain ⟨b, hb, hr⟩ := ha
    exact requeue_invariant h hb hr probes
  | complete task result written => exact complete_invariant h task result written
  | finish =>
    have hpos : 0 < s.finishing := ha
    have hcounted := h.counted
    have hbounded := h.bounded
    refine ⟨h.conserved, h.called, ?_, ?_, h.emptied⟩
    · simp only [next]
      omega
    · simp only [next]
      omega
  | cancelAll =>
    refine ⟨?_, cancel_called h _, h.counted, h.bounded,
      fun _ => ⟨Slots.content_empty, ha.1⟩⟩
    simp only [next, cancel, h.conserved, ← Slots.content_cancelAll s.slots, Slots.cancelAll,
      Slots.content_empty, ← Multiset.coe_add]
    abel

/-- The laws of the downloader in one state. -/
structure SettlesOnce (maxConcurrent : ℕ) (s : State) : Prop where
  /-- Each command enqueued is in one place: queued, in the batch at hand, spawned or settled. -/
  placed : (s.enqueued : Multiset SlotEntry) = s.slots.content + batchContent s.batch +
    (s.running : Multiset SlotEntry) + (s.settled : Multiset SlotEntry)
  /-- A handler is called as often as its command settled, and only then. -/
  called : ∀ command, owed command = true →
    (s.calls.map Completion.command).count command = s.settled.count command
  bounded : s.running.length + s.finishing ≤ maxConcurrent
  /-- With distinct commands: each settled one was called once, no other was. -/
  once : s.enqueued.Nodup → ∀ command ∈ s.enqueued, owed command = true →
    (s.calls.map Completion.command).count command = if command ∈ s.settled then 1 else 0
  /-- Past the drop, once the spawned fetches are through, every command has settled. -/
  finished : s.dropped = true → s.running = [] →
    (s.settled : Multiset SlotEntry) = (s.enqueued : Multiset SlotEntry)

theorem invariant_settlesOnce (h : Invariant maxConcurrent s) : SettlesOnce maxConcurrent s := by
  have hcalled : ∀ command, owed command = true →
      (s.calls.map Completion.command).count command = s.settled.count command := by
    intro command howed
    rw [h.called, List.count_filter howed]
  refine ⟨h.conserved, hcalled, ?_, ?_, ?_⟩
  · have hbounded := h.bounded
    have hcounted := h.counted
    omega
  · intro hnodup command _ howed
    rw [hcalled command howed]
    have hsettled : s.settled.Nodup := by
      have hle : (s.settled : Multiset SlotEntry) ≤ (s.enqueued : Multiset SlotEntry) := by
        rw [h.conserved]
        exact Multiset.le_add_left _ _
      exact Multiset.coe_nodup.mp (Multiset.nodup_of_le hle (Multiset.coe_nodup.mpr hnodup))
    exact hsettled.count
  · intro hd hr
    obtain ⟨hslots, hbatch⟩ := h.emptied hd
    rw [h.conserved, hslots, hbatch, hr]
    simp [batchContent]

theorem settles_once (maxConcurrent : ℕ) (as : List Action)
    (h : (machine maxConcurrent).ValidTrace start as) :
    SettlesOnce maxConcurrent ((machine maxConcurrent).runTrace start as) :=
  invariant_settlesOnce (reachable_invariant (M := machine maxConcurrent)
    (I := Invariant maxConcurrent) (fun _ _ hi ha => next_invariant hi ha)
    (start_invariant maxConcurrent) ⟨as, h, rfl⟩)

/-- One command spawned, one left queued by the in-flight bound, and the drop that cancels it. -/
def dropTrace : List Action :=
  [.enqueue (slotIndex .high .high) ⟨1, some 0, .high, .streaming, true, true⟩,
    .enqueue (slotIndex .low .low) ⟨2, some 0, .low, .streaming, true, true⟩, .take 0 4,
    .processEntry false, .processEntry false, .requeue ⟨fun _ => false, fun _ _ => none, fun _ => true⟩, .cancelAll,
    .complete 0 (.ok []) (.ok 10), .finish]

theorem settles_once_drop :
    SettlesOnce 1 ((machine 1).runTrace start dropTrace) ∧
      ((machine 1).runTrace start dropTrace).calls.map (fun call => call.command.requestId) =
        [2, 1] := by
  refine ⟨settles_once 1 dropTrace ?_, rfl⟩
  exact ⟨⟨rfl, rfl⟩, ⟨rfl, rfl⟩, ⟨rfl, rfl⟩, ⟨_, _, _, rfl, rfl⟩, ⟨_, _, _, rfl, rfl⟩, ⟨_, rfl, rfl⟩,
    ⟨rfl, rfl⟩, Nat.zero_lt_one, Nat.zero_lt_one, trivial⟩

end DownloadRegistry

import Mathlib.Algebra.Order.BigOperators.Group.List
import Mathlib.Tactic.Linarith
import Kithara.PoolRegion

/-! The conservation of a region's budget. Each atomic step moves as much between the queues, the
hands of its task and the counter as it says; over a run, the counter is what all buffers and
open reservations are charged for, less what growths still owe. -/
namespace RegionConservation

open AtomicPrograms PoolOperations PoolAccounts PoolRegion TransitionSystem

variable {α : Type}

section Sums

variable {β : Type} (f : β → ℕ)

theorem sum_map_set {l : List β} {i : ℕ} {a b : β} (h : l[i]? = some a) :
    ((l.set i b).map f).sum + f a = (l.map f).sum + f b := by
  induction l generalizing i with
  | nil => cases h
  | cons x xs ih =>
    cases i with
    | zero =>
      obtain rfl : x = a := Option.some.inj h
      simp only [List.set_cons_zero, List.map_cons, List.sum_cons]
      omega
    | succ i =>
      have hrest := ih (i := i) (by simpa using h)
      simp only [List.set_cons_succ, List.map_cons, List.sum_cons]
      omega

theorem sum_map_eraseIdx {l : List β} {i : ℕ} {a : β} (h : l[i]? = some a) :
    ((l.eraseIdx i).map f).sum + f a = (l.map f).sum := by
  induction l generalizing i with
  | nil => cases h
  | cons x xs ih =>
    cases i with
    | zero =>
      obtain rfl : x = a := Option.some.inj h
      simp only [List.eraseIdx_cons_zero, List.map_cons, List.sum_cons]
      omega
    | succ i =>
      have hrest := ih (i := i) (by simpa using h)
      simp only [List.eraseIdx_cons_succ, List.map_cons, List.sum_cons]
      omega

theorem sum_map_append_one (l : List β) (a : β) :
    ((l ++ [a]).map f).sum = (l.map f).sum + f a := by
  rw [List.map_append, List.sum_append, List.map_cons, List.map_nil, List.sum_cons, List.sum_nil,
    Nat.add_zero]

theorem sum_map_partition (p : β → Bool) (l : List β) :
    ((l.filter p).map f).sum + ((l.filter fun a => !p a).map f).sum = (l.map f).sum := by
  induction l with
  | nil => rfl
  | cons x xs ih =>
    cases hx : p x with
    | true =>
      simp only [List.filter_cons, hx, Bool.not_true, if_true, Bool.false_eq_true, if_false,
        List.map_cons, List.sum_cons]
      omega
    | false =>
      simp only [List.filter_cons, hx, Bool.not_false, if_true, Bool.false_eq_true, if_false,
        List.map_cons, List.sum_cons]
      omega

end Sums

variable (pools : ℕ → PoolCore) (limit : ℕ)

section Queues

variable {pools}

theorem takeFirst_found (pools : ℕ → PoolCore) {slot : Slot} {idle rest : List (Slot × Buffer α)}
    {value : Buffer α}
    (h : takeFirst slot idle = some (value, rest)) :
    (slot, value) ∈ idle ∧ (∀ entry ∈ rest, entry ∈ idle) ∧
      idleBytes pools rest + bytes pools slot.pool value = idleBytes pools idle := by
  induction idle generalizing rest with
  | nil => cases h
  | cons entry idle ih =>
    unfold takeFirst at h
    by_cases hslot : entry.1 = slot
    · rw [if_pos hslot] at h
      obtain ⟨rfl, rfl⟩ := Prod.mk.inj (Option.some.inj h)
      subst hslot
      refine ⟨List.mem_cons_self, fun e he => List.mem_cons_of_mem _ he, ?_⟩
      simp only [idleBytes, List.map_cons, List.sum_cons]
      omega
    · rw [if_neg hslot] at h
      obtain ⟨⟨found, others⟩, hfound, heq⟩ := Option.map_eq_some_iff.mp h
      obtain ⟨rfl, rfl⟩ := Prod.mk.inj heq
      obtain ⟨hmem, hsub, hsum⟩ := ih hfound
      refine ⟨List.mem_cons_of_mem _ hmem, ?_, ?_⟩
      · intro e he
        rcases List.mem_cons.mp he with rfl | he
        · exact List.mem_cons_self
        · exact List.mem_cons_of_mem _ (hsub e he)
      · simp only [idleBytes, List.map_cons, List.sum_cons] at hsum ⊢
        omega

theorem idleBytes_push (idle : List (Slot × Buffer α)) (slot : Slot) (value : Buffer α) :
    idleBytes pools (idle ++ [(slot, value)]) =
      idleBytes pools idle + bytes pools slot.pool value :=
  sum_map_append_one _ _ _

end Queues

/-- Idle values are empty and of a size that can be counted. -/
def IdleEmpty (idle : List (Slot × Buffer α)) : Prop :=
  ∀ entry ∈ idle, entry.2.contents = [] ∧ Fits pools entry.1.pool entry.2

section Steps

variable {pools limit} {alive : ℕ → Bool} {choice : Choice} {r : Region α} {op : Op α} {l : Ledger}

theorem tryGet_cases (r : Region α) (slot : Slot) :
    r.tryGet slot = (r, none) ∨ ∃ value rest, takeFirst slot r.idle = some (value, rest) ∧
      r.tryGet slot = ({ r with idle := rest }, some value) := by
  unfold Region.tryGet
  cases hfound : takeFirst slot r.idle with
  | none => exact Or.inl rfl
  | some found => exact Or.inr ⟨found.1, found.2, rfl, rfl⟩

theorem push_cases (pools : ℕ → PoolCore) (r : Region α) (slot : Slot) (value : Buffer α) :
    r.push pools slot value = (r, .error value) ∨
      r.push pools slot value = ({ r with idle := r.idle ++ [(slot, value)] }, .ok ()) := by
  by_cases hroom : queued slot r.idle < (pools slot.pool).slotCapacity slot
  · exact Or.inr (if_pos hroom)
  · exact Or.inl (if_neg hroom)

theorem tryAcquire_cases (limit : ℕ) (r : Region α) (amount : ℕ) :
    r.tryAcquire limit amount = (r, .error r.current) ∨ (r.current + amount ≤ limit ∧
      r.tryAcquire limit amount = ({ r with current := r.current + amount }, .ok ())) := by
  unfold Region.tryAcquire
  by_cases hwide : usizeRange ≤ r.current + amount
  · exact Or.inl (if_pos hwide)
  by_cases hover : limit < r.current + amount
  · exact Or.inl ((if_neg hwide).trans (if_pos hover))
  · exact Or.inr ⟨Nat.le_of_not_lt hover, (if_neg hwide).trans (if_neg hover)⟩

theorem release_backed {amount : ℕ} (h : amount ≤ r.current) :
    r.release amount = { r with current := r.current - amount } :=
  if_pos h

theorem fresh_some {pool capacity : ℕ} {value : Buffer α}
    (h : choice.fresh pools pool capacity = some value) :
    value.contents = [] ∧ capacity ≤ value.capacity ∧ Fits pools pool value := by
  unfold Choice.fresh at h
  cases hextra : choice.extra with
  | none =>
    rw [hextra] at h
    cases h
  | some extra =>
    simp only [hextra] at h
    by_cases hfits : (capacity + extra) * (pools pool).elementBytes < usizeRange
    · rw [if_pos hfits] at h
      obtain rfl := Option.some.inj h
      exact ⟨rfl, Nat.le_add_right _ _, hfits⟩
    · rw [if_neg hfits] at h
      cases h

theorem perform_answers (limit : ℕ) (alive : ℕ → Bool) (choice : Choice) (op : Op α)
    (hidle : IdleEmpty pools r.idle) :
    Answers pools op (r.perform pools limit alive choice op).2 := by
  cases op with
  | tryGet slot =>
    show ∀ value, (r.tryGet slot).2 = some value → _
    intro value hvalue
    rcases tryGet_cases r slot with hnone | ⟨found, rest, htake, hsome⟩
    · rw [hnone] at hvalue
      cases hvalue
    · rw [hsome] at hvalue
      obtain rfl : found = value := Option.some.inj hvalue
      exact hidle _ (takeFirst_found pools htake).1
  | push slot value =>
    show ∀ rejected, (r.push pools slot value).2 = .error rejected → _
    intro rejected hrejected
    rcases push_cases pools r slot value with hfull | hroom
    · rw [hfull] at hrejected
      exact (Except.error.inj hrejected).symm
    · rw [hroom] at hrejected
      cases hrejected
  | tryWithCapacity pool capacity => exact fun value hvalue => fresh_some hvalue
  | moveFrom value other => exact fun h => ⟨if_pos h, rfl⟩
  | shrinkTo value minCapacity => exact ⟨rfl, Nat.min_le_left _ _⟩
  | len slot => trivial
  | current => trivial
  | tryAcquire amount => trivial
  | release charge => trivial
  | commit size oldBytes => trivial
  | replace oldBytes => trivial
  | reclaimers => trivial
  | nextReclaimer => trivial
  | upgrade pool => trivial
  | downgrade pool => trivial

/-- What one step moves: between the queues, the hands of its task and the counter nothing is lost,
the limit holds, and a release finds in the counter what it gives back. -/
structure Moves (pools : ℕ → PoolCore) (limit : ℕ) (alive : ℕ → Bool) (r r' : Region α)
    (l l' : Ledger) : Prop where
  conserved : r'.current + l'.replaced + idleBytes pools r.idle + (l.held + l.reserved) =
    r.current + l.replaced + idleBytes pools r'.idle + (l'.held + l'.reserved)
  covered : l'.replaced ≤ l'.held
  limited : r.current ≤ limit → r'.current ≤ limit
  sound : r'.underflowed = r.underflowed
  idle : ∀ entry ∈ r'.idle, entry ∈ r.idle ∨
    (entry.1.pool ∈ l.refs ∧ entry.2.contents = [] ∧ Fits pools entry.1.pool entry.2)
  refs : ∀ pool ∈ l'.refs, pool ∈ l.refs ∨ alive pool = true

theorem perform_moves (limit : ℕ) (alive : ℕ → Bool) (choice : Choice)
    (hop : l.Admits pools op) (hcovered : l.replaced ≤ l.held)
    (hcharged : l.held + l.reserved ≤ r.current + l.replaced) :
    Moves pools limit alive r (r.perform pools limit alive choice op).1 l
      (l.after pools op (r.perform pools limit alive choice op).2) := by
  have hstill : ∀ l' : Ledger, l'.held + l'.reserved + l.replaced = l.held + l.reserved + l'.replaced →
      l'.replaced ≤ l'.held → (∀ pool ∈ l'.refs, pool ∈ l.refs ∨ alive pool = true) →
      Moves pools limit alive r r l l' := by
    intro l' hsame hcov hrefs
    exact ⟨by omega, hcov, id, rfl, fun _ h => Or.inl h, hrefs⟩
  have hsteady : Moves pools limit alive r r l l :=
    hstill l rfl hcovered fun _ h => Or.inl h
  cases op with
  | tryGet slot =>
    show Moves pools limit alive r (r.tryGet slot).1 l (l.after pools (.tryGet slot) (r.tryGet slot).2)
    rcases tryGet_cases r slot with hnone | ⟨value, rest, htake, hsome⟩
    · rw [hnone]
      exact hsteady
    · rw [hsome]
      obtain ⟨_, hsub, hsum⟩ := takeFirst_found pools htake
      refine ⟨?_, ?_, id, rfl, fun entry h => Or.inl (hsub entry h), fun _ h => Or.inl h⟩
      · simp only [Ledger.after, Ledger.takes]
        omega
      · simp only [Ledger.after, Ledger.takes]
        omega
  | push slot value =>
    obtain ⟨hpool, hempty, hfits, hheld⟩ := hop
    show Moves pools limit alive r (r.push pools slot value).1 l
      (l.after pools (.push slot value) (r.push pools slot value).2)
    rcases push_cases pools r slot value with hfull | hroom
    · rw [hfull]
      exact hsteady
    · rw [hroom]
      refine ⟨?_, ?_, id, rfl, ?_, fun _ h => Or.inl h⟩
      · simp only [Ledger.after, Ledger.gives, idleBytes_push]
        omega
      · simp only [Ledger.after, Ledger.gives]
        omega
      · intro entry hentry
        rcases List.mem_append.mp hentry with hentry | hentry
        · exact Or.inl hentry
        · obtain rfl := List.mem_singleton.mp hentry
          exact Or.inr ⟨hpool, hempty, hfits⟩
  | tryAcquire amount =>
    show Moves pools limit alive r (r.tryAcquire limit amount).1 l
      (l.after pools (.tryAcquire amount) (r.tryAcquire limit amount).2)
    rcases tryAcquire_cases limit r amount with hover | ⟨hlimit, hroom⟩
    · rw [hover]
      exact hsteady
    · rw [hroom]
      refine ⟨?_, hcovered, fun _ => hlimit, rfl, fun _ h => Or.inl h, fun _ h => Or.inl h⟩
      simp only [Ledger.after]
      omega
  | release charge =>
    have hamount : charge.amount ≤ r.current := by
      cases charge with
      | reservation amount =>
        have : amount ≤ l.reserved := hop
        show amount ≤ r.current
        omega
      | buffer size =>
        have : size + l.replaced ≤ l.held := hop
        show size ≤ r.current
        omega
      | shrunk before after =>
        have : before + l.replaced ≤ l.held := hop.2
        show before - after ≤ r.current
        omega
    show Moves pools limit alive r (r.release charge.amount) l (l.after pools (.release charge) ())
    rw [release_backed hamount]
    cases charge with
    | reservation amount =>
      have hreserved : amount ≤ l.reserved := hop
      have hcurrent : amount ≤ r.current := hamount
      refine ⟨?_, hcovered, ?_, rfl, fun _ h => Or.inl h, fun _ h => Or.inl h⟩
      · simp only [Ledger.after, Charge.amount]
        omega
      · simp only [Charge.amount]
        omega
    | buffer size =>
      have hheld : size + l.replaced ≤ l.held := hop
      have hcurrent : size ≤ r.current := hamount
      refine ⟨?_, ?_, ?_, rfl, fun _ h => Or.inl h, fun _ h => Or.inl h⟩
      · simp only [Ledger.after, Ledger.gives, Charge.amount]
        omega
      · simp only [Ledger.after, Ledger.gives]
        omega
      · simp only [Charge.amount]
        omega
    | shrunk before after =>
      obtain ⟨hle, hheld⟩ : after ≤ before ∧ before + l.replaced ≤ l.held := hop
      have hcurrent : before - after ≤ r.current := hamount
      refine ⟨?_, ?_, ?_, rfl, fun _ h => Or.inl h, fun _ h => Or.inl h⟩
      · simp only [Ledger.after, Ledger.gives, Charge.amount]
        omega
      · simp only [Ledger.after, Ledger.gives]
        omega
      · simp only [Charge.amount]
        omega
  | tryWithCapacity pool capacity => exact hsteady
  | commit size oldBytes =>
    obtain ⟨hle, hreserved, hold⟩ : oldBytes ≤ size ∧ size - oldBytes ≤ l.reserved ∧
      l.replaced + oldBytes ≤ l.held := hop
    refine hstill _ ?_ ?_ fun _ h => Or.inl h
    · simp only [Ledger.after]
      omega
    · simp only [Ledger.after]
      omega
  | replace oldBytes =>
    have howed : oldBytes ≤ l.replaced := hop
    refine hstill _ ?_ ?_ fun _ h => Or.inl h
    · simp only [Ledger.after]
      omega
    · simp only [Ledger.after]
      omega
  | nextReclaimer =>
    exact ⟨rfl, hcovered, id, rfl, fun _ h => Or.inl h, fun _ h => Or.inl h⟩
  | upgrade pool =>
    show Moves pools limit alive r r l (l.after pools (.upgrade pool : Op α) (alive pool))
    cases halive : alive pool with
    | false => exact hsteady
    | true =>
      refine hstill _ rfl hcovered ?_
      intro p hp
      rcases List.mem_cons.mp hp with rfl | hp
      · exact Or.inr halive
      · exact Or.inl hp
  | downgrade pool =>
    exact hstill _ rfl hcovered fun p hp => Or.inl (List.mem_of_mem_erase hp)
  | moveFrom value other => exact hsteady
  | shrinkTo value minCapacity => exact hsteady
  | len slot => exact hsteady
  | current => exact hsteady
  | reclaimers => exact hsteady

end Steps

section Operations

def guard : Request α → Option (Handle α)
  | .grow handle _ => some handle
  | .normalize handle => some handle
  | .renew handle => some handle
  | .shrinkTo handle _ => some handle
  | .drop handle => some handle
  | _ => none

/-- What a finished operation leaves in its task's account: the guard it hands over, or nothing. A
failed operation hands over the guard it got. -/
def Settled (request : Request α) : Outcome α → Ledger → Prop
  | .holds result handle, l => l = ⟨handle.bytes pools, 0, 0, [handle.pool]⟩ ∧
      Fits pools handle.pool handle.value ∧ ∀ error, result = .error error → guard request = some handle
  | .built pool, l => l = ⟨0, 0, 0, [pool]⟩
  | .refused _, l => l.held = 0 ∧ l.reserved = 0 ∧ l.replaced = 0
  | .gone, l => l.held = 0 ∧ l.reserved = 0 ∧ l.replaced = 0

/-- The values a request brings along are of a size that can be counted. -/
def Request.Fits : Request α → Prop
  | .dropCore pool values => ∀ value ∈ values, PoolAccounts.Fits pools pool value
  | request => ∀ handle, guard request = some handle →
      PoolAccounts.Fits pools handle.pool handle.value

variable {pools limit}

theorem exchange_all {size : ℕ} {pool other : ℕ} :
    (⟨size, 0, 0, [pool]⟩ : Ledger).exchange other size = ⟨other, 0, 0, [pool]⟩ := by
  unfold Ledger.exchange Ledger.takes Ledger.gives
  rw [Nat.add_comm, Nat.add_sub_cancel]

theorem request_runs {request : Request α} (h : Request.Fits pools request) :
    Runs pools (Settled pools request) (request.program pools limit) (request.ledger pools) := by
  have hself : ∀ handle : Handle α, handle.bytes pools + 0 ≤ handle.bytes pools :=
    fun _ => Nat.le_refl _
  cases request with
  | build pool =>
    refine meets_bind (newCore_runs List.mem_cons_self (Nat.le_refl _) fun result => ?_)
    cases result with
    | error error => exact ⟨rfl, rfl, rfl⟩
    | ok _ => exact rfl
  | acquire pool shard =>
    refine meets_bind (acquire_runs List.mem_cons_self fun value _ hfits => ?_)
    refine ⟨?_, hfits, fun error herror => by cases herror⟩
    unfold Request.ledger Ledger.takes Handle.bytes
    rw [Nat.zero_add]
  | grow handle newLen =>
    refine meets_bind (grow_runs List.mem_cons_self (h handle rfl) (hself handle) ?_ ?_)
    · intro value _ hfits
      exact ⟨exchange_all, hfits, fun error herror => by cases herror⟩
    · exact fun error => ⟨rfl, h handle rfl, fun _ _ => rfl⟩
  | normalize handle =>
    refine meets_bind (normalize_runs (h handle rfl) (hself handle) fun value hfits => ?_)
    exact ⟨exchange_all, hfits, fun error herror => by cases herror⟩
  | renew handle =>
    refine meets_bind (renew_runs List.mem_cons_self (h handle rfl) (hself handle) fun value hfits => ?_)
    exact ⟨exchange_all, hfits, fun error herror => by cases herror⟩
  | shrinkTo handle minCapacity =>
    refine meets_bind (shrinkTo_runs (h handle rfl) (hself handle) fun value hfits => ?_)
    exact ⟨exchange_all, hfits, fun error herror => by cases herror⟩
  | drop handle =>
    refine meets_bind (put_runs List.mem_cons_self (h handle rfl) (hself handle) ?_)
    exact ⟨Nat.sub_self _, rfl, rfl⟩
  | reclaim target =>
    exact meets_bind (reclaim_runs (Nat.le_refl _) fun _ => ⟨rfl, rfl, rfl⟩)
  | dropCore pool values =>
    refine meets_bind (dropCore_runs h (Nat.le_refl _) ?_)
    exact ⟨Nat.sub_self _, rfl, rfl⟩

theorem ledger_covered (request : Request α) :
    (request.ledger pools).replaced ≤ (request.ledger pools).held := by
  cases request <;> exact Nat.zero_le _

theorem ledger_plain (pools : ℕ → PoolCore) (request : Request α) :
    (request.ledger pools).replaced = 0 ∧ (request.ledger pools).reserved = 0 := by
  cases request <;> exact ⟨rfl, rfl⟩

end Operations

section Invariant

def State.Stands (s : State α) (pool : ℕ) : Prop :=
  pool ∈ s.begun ∧ pool ∉ s.dropped

/-- A task's program settles its account whatever comes; the pools it refers to stand; and its
account is what it started with, plus what it added to the counter and took out of the queues. -/
structure ActivitySound (s : State α) (task : Activity α) : Prop where
  runs : Runs pools (Settled pools task.request) task.program task.ledger
  covered : task.ledger.replaced ≤ task.ledger.held
  stands : ∀ pool ∈ task.ledger.refs, State.Stands s pool
  account : ((task.ledger.held + task.ledger.reserved : ℕ) : ℤ) =
    task.ledger.replaced + (task.request.ledger pools).held + task.added + task.took

def handleBytes (s : State α) : ℕ := (s.handles.map (Handle.bytes pools)).sum

def handBytes (s : State α) : ℕ :=
  (s.tasks.map fun task => task.ledger.held + task.ledger.reserved).sum

def owedBytes (s : State α) : ℕ :=
  (s.tasks.map fun task => task.ledger.replaced).sum

structure Conserved (s : State α) : Prop where
  counted : s.region.current + owedBytes s =
    idleBytes pools s.region.idle + handleBytes pools s + handBytes s
  limited : s.region.current ≤ limit
  sound : s.region.underflowed = false
  idle : IdleEmpty pools s.region.idle
  idleStands : ∀ entry ∈ s.region.idle, State.Stands s entry.1.pool
  handles : ∀ handle ∈ s.handles, Fits pools handle.pool handle.value ∧ State.Stands s handle.pool
  slots : ∀ pool ∈ s.slots, State.Stands s pool
  dropped : ∀ pool ∈ s.dropped, pool ∈ s.begun
  tasks : ∀ task ∈ s.tasks, ActivitySound pools s task

variable {pools limit}

theorem conserved_initial : Conserved pools limit (State.initial : State α) where
  counted := rfl
  limited := Nat.zero_le _
  sound := rfl
  idle := fun _ h => absurd h List.not_mem_nil
  idleStands := fun _ h => absurd h List.not_mem_nil
  handles := fun _ h => absurd h List.not_mem_nil
  slots := fun _ h => absurd h List.not_mem_nil
  dropped := fun _ h => absurd h List.not_mem_nil
  tasks := fun _ h => absurd h List.not_mem_nil

theorem ActivitySound.transfer {s s' : State α} {task : Activity α} (h : ActivitySound pools s task)
    (hstands : ∀ pool ∈ task.ledger.refs, State.Stands s pool → State.Stands s' pool) :
    ActivitySound pools s' task :=
  ⟨h.runs, h.covered, fun pool hp => hstands pool hp (h.stands pool hp), h.account⟩

theorem stands_of_alive {s : State α} (h : Conserved pools limit s) {pool : ℕ}
    (halive : s.alive pool = true) : State.Stands s pool := by
  unfold State.alive at halive
  rw [Bool.or_eq_true, Bool.or_eq_true] at halive
  rcases halive with (hslot | hhandle) | htask
  · exact h.slots pool (of_decide_eq_true hslot)
  · obtain ⟨handle, hmem, hpool⟩ := List.any_eq_true.mp hhandle
    have heq : handle.pool = pool := beq_iff_eq.mp hpool
    exact heq ▸ (h.handles handle hmem).2
  · obtain ⟨task, hmem, hpool⟩ := List.any_eq_true.mp htask
    exact (h.tasks task hmem).stands pool (of_decide_eq_true hpool)

/-- The tasks together owe less than they hold, so each finds its own charges in the counter. -/
theorem charged {s : State α} (h : Conserved pools limit s) {index : ℕ} {task : Activity α}
    (htask : s.tasks[index]? = some task) :
    task.ledger.held + task.ledger.reserved ≤ s.region.current + task.ledger.replaced := by
  have hhands := sum_map_eraseIdx (fun t : Activity α => t.ledger.held + t.ledger.reserved) htask
  have howed := sum_map_eraseIdx (fun t : Activity α => t.ledger.replaced) htask
  have hothers : ((s.tasks.eraseIdx index).map fun t => t.ledger.replaced).sum ≤
      ((s.tasks.eraseIdx index).map fun t => t.ledger.held + t.ledger.reserved).sum := by
    refine List.sum_le_sum fun other hother => ?_
    have := (h.tasks other (List.mem_of_mem_eraseIdx hother)).covered
    omega
  have hcounted := h.counted
  unfold owedBytes handBytes at hcounted
  omega

theorem spawn_conserved {s : State α} {request : Request α} (hfits : Request.Fits pools request)
    (hstands : ∀ pool ∈ (request.ledger pools).refs, State.Stands s pool)
    (hcounted : s.region.current + owedBytes s = idleBytes pools s.region.idle +
      handleBytes pools s + handBytes s + (request.ledger pools).held)
    (hlimited : s.region.current ≤ limit) (hsound : s.region.underflowed = false)
    (hidle : IdleEmpty pools s.region.idle)
    (hidleStands : ∀ entry ∈ s.region.idle, State.Stands s entry.1.pool)
    (hhandles : ∀ handle ∈ s.handles,
      Fits pools handle.pool handle.value ∧ State.Stands s handle.pool)
    (hslots : ∀ pool ∈ s.slots, State.Stands s pool)
    (hdropped : ∀ pool ∈ s.dropped, pool ∈ s.begun)
    (htasks : ∀ task ∈ s.tasks, ActivitySound pools s task) :
    Conserved pools limit (s.spawn pools limit request) where
  counted := by
    obtain ⟨hreplaced, hreserved⟩ := ledger_plain pools request
    unfold owedBytes handBytes at hcounted ⊢
    show s.region.current + ((s.tasks ++ [launch pools limit request]).map _).sum =
      idleBytes pools s.region.idle + handleBytes pools s +
        ((s.tasks ++ [launch pools limit request]).map _).sum
    rw [sum_map_append_one, sum_map_append_one]
    simp only [launch]
    omega
  limited := hlimited
  sound := hsound
  idle := hidle
  idleStands := hidleStands
  handles := hhandles
  slots := hslots
  dropped := hdropped
  tasks := by
    intro task htask
    rcases List.mem_append.mp htask with htask | htask
    · exact (htasks task htask).transfer fun _ _ hp => hp
    · obtain rfl := List.mem_singleton.mp htask
      obtain ⟨hreplaced, hreserved⟩ := ledger_plain pools request
      refine ⟨request_runs hfits, ledger_covered request, hstands, ?_⟩
      simp only [launch, hreplaced, hreserved]
      omega

theorem advance_conserved {s : State α} (h : Conserved pools limit s) {index : ℕ}
    {task : Activity α} (htask : s.tasks[index]? = some task) (choice : Choice) :
    Conserved pools limit (s.advance pools limit index task choice) := by
  obtain ⟨hruns, hcovered, hstands, haccount⟩ := h.tasks task (List.mem_of_getElem? htask)
  unfold State.advance
  cases hprogram : task.program with
  | ret outcome => exact h
  | call op k =>
    rw [hprogram] at hruns
    obtain ⟨hop, hcontinue⟩ := hruns
    have hanswer := hcontinue _ (perform_answers limit s.alive choice op h.idle)
    have hmoves := perform_moves limit s.alive choice hop hcovered (charged h htask)
    dsimp only
    generalize s.region.perform pools limit s.alive choice op = done at hanswer hmoves
    have hsame := hmoves.conserved
    have hpools : ∀ pool ∈ (task.ledger.after pools op done.2).refs, State.Stands s pool := by
      intro pool hpool
      rcases hmoves.refs pool hpool with hpool | halive
      · exact hstands pool hpool
      · exact stands_of_alive h halive
    refine ⟨?_, hmoves.limited h.limited, hmoves.sound.trans h.sound, ?_, ?_, h.handles, h.slots,
    h.dropped, ?_⟩
    · have hhands := sum_map_set (fun t : Activity α => t.ledger.held + t.ledger.reserved)
        (b := (⟨task.request, k done.2, task.ledger.after pools op done.2,
          task.added + (done.1.current - s.region.current),
          task.took + (idleBytes pools s.region.idle - idleBytes pools done.1.idle)⟩ : Activity α)) htask
      have howed := sum_map_set (fun t : Activity α => t.ledger.replaced)
        (b := (⟨task.request, k done.2, task.ledger.after pools op done.2,
          task.added + (done.1.current - s.region.current),
          task.took + (idleBytes pools s.region.idle - idleBytes pools done.1.idle)⟩ : Activity α)) htask
      have hcounted := h.counted
      unfold owedBytes handBytes handleBytes at hcounted ⊢
      dsimp only at hhands howed ⊢
      omega
    · intro entry hentry
      rcases hmoves.idle entry hentry with hentry | ⟨_, hempty, hfits⟩
      · exact h.idle entry hentry
      · exact ⟨hempty, hfits⟩
    · intro entry hentry
      rcases hmoves.idle entry hentry with hentry | ⟨hpool, _, _⟩
      · exact h.idleStands entry hentry
      · exact hstands _ hpool
    · intro other hother
      rcases List.mem_or_eq_of_mem_set hother with hother | rfl
      · exact (h.tasks other hother).transfer fun _ _ hp => hp
      · refine ⟨hanswer, hmoves.covered, hpools, ?_⟩
        dsimp only
        push_cast at haccount ⊢
        omega

theorem finish_conserved {s : State α} (h : Conserved pools limit s) {index : ℕ}
    {task : Activity α} (htask : s.tasks[index]? = some task) :
    Conserved pools limit (s.finish index task) := by
  obtain ⟨hruns, hcovered, hstands, haccount⟩ := h.tasks task (List.mem_of_getElem? htask)
  have hhands := sum_map_eraseIdx (fun t : Activity α => t.ledger.held + t.ledger.reserved) htask
  have howed := sum_map_eraseIdx (fun t : Activity α => t.ledger.replaced) htask
  have hcounted := h.counted
  have hothers : ∀ other ∈ s.tasks.eraseIdx index, ActivitySound pools s other := fun other hother =>
    h.tasks other (List.mem_of_mem_eraseIdx hother)
  unfold owedBytes handBytes handleBytes at hcounted
  have hnothing : task.ledger.held = 0 ∧ task.ledger.reserved = 0 ∧ task.ledger.replaced = 0 →
      Conserved pools limit { s with tasks := s.tasks.eraseIdx index } := by
    rintro ⟨hheld, hreserved, hreplaced⟩
    refine ⟨?_, h.limited, h.sound, h.idle, h.idleStands, h.handles, h.slots, h.dropped,
      fun other hother => (hothers other hother).transfer fun _ _ hp => hp⟩
    unfold owedBytes handBytes handleBytes
    dsimp only at hhands howed ⊢
    omega
  unfold State.finish
  cases hprogram : task.program with
  | call op k => exact h
  | ret outcome =>
    rw [hprogram] at hruns
    cases outcome with
    | refused error => exact hnothing hruns
    | gone => exact hnothing hruns
    | built pool =>
      have hledger : task.ledger = ⟨0, 0, 0, [pool]⟩ := hruns
      have hpool : State.Stands s pool := hstands pool (by rw [hledger]; exact List.mem_cons_self)
      refine ⟨?_, h.limited, h.sound, h.idle, h.idleStands, h.handles, ?_, h.dropped,
        fun other hother => (hothers other hother).transfer fun _ _ hp => hp⟩
      · unfold owedBytes handBytes handleBytes
        rw [hledger] at hhands howed
        dsimp only at hhands howed ⊢
        omega
      · intro p hp
        rcases List.mem_cons.mp hp with rfl | hp
        · exact hpool
        · exact h.slots p hp
    | holds result handle =>
      obtain ⟨hledger, hfits, _⟩ := hruns
      have hpool : State.Stands s handle.pool :=
        hstands _ (by rw [hledger]; exact List.mem_cons_self)
      refine ⟨?_, h.limited, h.sound, h.idle, h.idleStands, ?_, h.slots, h.dropped,
        fun other hother => (hothers other hother).transfer fun _ _ hp => hp⟩
      · unfold owedBytes handBytes handleBytes
        rw [hledger] at hhands howed
        dsimp only at hhands howed ⊢
        rw [sum_map_append_one]
        omega
      · intro other hother
        rcases List.mem_append.mp hother with hother | hother
        · exact h.handles other hother
        · obtain rfl := List.mem_singleton.mp hother
          exact ⟨hfits, hpool⟩

theorem use_fits {handle : Handle α} (h : Fits pools handle.pool handle.value) (what : Use) :
    Request.Fits pools (what.request handle) := by
  cases what <;> (intro other hother; obtain rfl := Option.some.inj hother; exact h)

theorem use_ledger (handle : Handle α) (what : Use) :
    (what.request handle).ledger pools = ⟨handle.bytes pools, 0, 0, [handle.pool]⟩ := by
  cases what <;> rfl

theorem use_conserved {s : State α} (h : Conserved pools limit s) {index : ℕ} {handle : Handle α}
    (hhandle : s.handles[index]? = some handle) (what : Use) :
    Conserved pools limit
      ({ s with handles := s.handles.eraseIdx index }.spawn pools limit (what.request handle)) := by
  obtain ⟨hfits, hstands⟩ := h.handles handle (List.mem_of_getElem? hhandle)
  refine spawn_conserved (use_fits hfits what) ?_ ?_ h.limited h.sound h.idle h.idleStands ?_
    h.slots h.dropped
    fun task htask => (h.tasks task htask).transfer fun _ _ hp => hp
  · intro pool hpool
    rw [use_ledger] at hpool
    obtain rfl := List.mem_singleton.mp hpool
    exact hstands
  · have hsum := sum_map_eraseIdx (Handle.bytes pools) hhandle
    have hcounted := h.counted
    rw [use_ledger]
    unfold owedBytes handBytes handleBytes at hcounted ⊢
    dsimp only
    omega
  · exact fun other hother => h.handles other (List.mem_of_mem_eraseIdx hother)

theorem edit_bytes (pools : ℕ → PoolCore) (handle : Handle α) (contents : List α) :
    (handle.edit contents).pool = handle.pool ∧
      (handle.edit contents).bytes pools = handle.bytes pools := by
  unfold Handle.edit
  split <;> exact ⟨rfl, rfl⟩

theorem edit_conserved {s : State α} (h : Conserved pools limit s) {index : ℕ} {handle : Handle α}
    (hhandle : s.handles[index]? = some handle) (contents : List α) :
    Conserved pools limit { s with handles := s.handles.set index (handle.edit contents) } := by
  obtain ⟨hfits, hstands⟩ := h.handles handle (List.mem_of_getElem? hhandle)
  obtain ⟨hpool, hbytes⟩ := edit_bytes pools handle contents
  refine ⟨?_, h.limited, h.sound, h.idle, h.idleStands, ?_, h.slots, h.dropped,
    fun task htask => (h.tasks task htask).transfer fun _ _ hp => hp⟩
  · have hsum := sum_map_set (Handle.bytes pools) (b := handle.edit contents) hhandle
    have hcounted := h.counted
    unfold owedBytes handBytes handleBytes at hcounted ⊢
    dsimp only
    omega
  · intro other hother
    rcases List.mem_or_eq_of_mem_set hother with hother | rfl
    · exact h.handles other hother
    · constructor
      · show (handle.edit contents).bytes pools < usizeRange
        rw [hbytes]
        exact hfits
      · rw [hpool]
        exact hstands

theorem dropCore_conserved {s : State α} (h : Conserved pools limit s) {pool : ℕ}
    (hbegun : pool ∈ s.begun) (halive : s.alive pool = false) :
    Conserved pools limit
      ({ s with
        region := { s.region with
          idle := s.region.idle.filter fun entry => entry.1.pool ≠ pool }
        dropped := pool :: s.dropped }.spawn pools limit (.dropCore pool (s.drain pool))) := by
  unfold State.alive at halive
  rw [Bool.or_eq_false_iff, Bool.or_eq_false_iff] at halive
  obtain ⟨⟨hslot, hhandle⟩, htask⟩ := halive
  have hother : ∀ p, State.Stands s p → p ≠ pool → p ∈ s.begun ∧ p ∉ pool :: s.dropped := by
    intro p hp hne
    exact ⟨hp.1, fun hmem => (List.mem_cons.mp hmem).elim hne hp.2⟩
  refine spawn_conserved ?_ (fun _ hp => absurd hp List.not_mem_nil) ?_ h.limited h.sound
    ?_ ?_ ?_ ?_ ?_ ?_
  · intro value hvalue
    obtain ⟨entry, hentry, rfl⟩ := List.mem_map.mp hvalue
    obtain ⟨hmem, hpool⟩ := List.mem_filter.mp hentry
    obtain rfl := of_decide_eq_true hpool
    exact (h.idle entry hmem).2
  · have hsplit := sum_map_partition
      (fun entry : Slot × Buffer α => bytes pools entry.1.pool entry.2)
      (fun entry => decide (entry.1.pool = pool)) s.region.idle
    have hdrained : sizes pools pool (s.drain pool) = ((s.region.idle.filter fun entry =>
        decide (entry.1.pool = pool)).map fun entry => bytes pools entry.1.pool entry.2).sum := by
      unfold sizes State.drain
      rw [List.map_map]
      congr 1
      refine List.map_congr_left fun entry hentry => ?_
      have hpool := of_decide_eq_true (List.mem_filter.mp hentry).2
      rw [Function.comp_apply, hpool]
    have hcounted := h.counted
    unfold owedBytes handBytes handleBytes idleBytes at hcounted ⊢
    show _ = _ + sizes pools pool (s.drain pool)
    simp only [ne_eq, decide_not]
    omega
  · exact fun entry hentry => h.idle entry (List.mem_of_mem_filter hentry)
  · intro entry hentry
    obtain ⟨hmem, hne⟩ := List.mem_filter.mp hentry
    exact hother _ (h.idleStands entry hmem) (of_decide_eq_true hne)
  · intro handle hmem
    obtain ⟨hfits, hstands⟩ := h.handles handle hmem
    refine ⟨hfits, hother _ hstands fun heq => ?_⟩
    have hany := List.any_eq_false.mp hhandle handle hmem
    exact hany (beq_iff_eq.mpr heq)
  · intro p hp
    refine hother p (h.slots p hp) fun heq => ?_
    exact of_decide_eq_false hslot (heq ▸ hp)
  · intro p hp
    rcases List.mem_cons.mp hp with rfl | hp
    · exact hbegun
    · exact h.dropped p hp
  · intro task hmem
    refine (h.tasks task hmem).transfer fun p hp hstands => hother p hstands fun heq => ?_
    have hany := List.any_eq_false.mp htask task hmem
    exact hany (decide_eq_true (heq ▸ hp))

theorem step_conserved {s : State α} {label : Label α} (h : Conserved pools limit s)
    (henabled : s.Enabled pools label) : Conserved pools limit (s.next pools limit label) := by
  cases label with
  | build pool =>
    have hplain : Request.Fits pools (.build pool : Request α) := fun handle hsome => by cases hsome
    have hgrow : ∀ p, State.Stands s p → p ∈ pool :: s.begun ∧ p ∉ s.dropped :=
      fun p hp => ⟨List.mem_cons_of_mem _ hp.1, hp.2⟩
    refine spawn_conserved hplain ?_ h.counted h.limited h.sound h.idle
      (fun entry hentry => hgrow _ (h.idleStands entry hentry))
      (fun handle hhandle => ⟨(h.handles handle hhandle).1, hgrow _ (h.handles handle hhandle).2⟩)
      (fun p hp => hgrow p (h.slots p hp))
      (fun p hp => List.mem_cons_of_mem _ (h.dropped p hp))
      fun task htask => (h.tasks task htask).transfer fun p _ hp => hgrow p hp
    intro p hp
    obtain rfl := List.mem_singleton.mp hp
    exact ⟨List.mem_cons_self, fun hdropped => henabled (h.dropped p hdropped)⟩
  | install reclaimers =>
    exact ⟨h.counted, h.limited, h.sound, h.idle, h.idleStands, h.handles, h.slots, h.dropped,
      fun task htask => (h.tasks task htask).transfer fun _ _ hp => hp⟩
  | acquire pool shard =>
    have hplain : Request.Fits pools (.acquire pool shard : Request α) := by
      intro handle hsome
      cases hsome
    refine spawn_conserved hplain ?_ h.counted h.limited h.sound h.idle
      h.idleStands h.handles h.slots h.dropped h.tasks
    intro p hp
    obtain rfl := List.mem_singleton.mp hp
    exact h.slots p henabled.1
  | reclaim target =>
    have hplain : Request.Fits pools (.reclaim target : Request α) := by
      intro handle hsome
      cases hsome
    exact spawn_conserved hplain (fun _ hp => absurd hp List.not_mem_nil)
      h.counted h.limited h.sound h.idle h.idleStands h.handles h.slots h.dropped h.tasks
  | use index what =>
    cases hhandle : s.handles[index]? with
    | none =>
      simp only [State.next, hhandle]
      exact h
    | some handle =>
      simp only [State.next, hhandle]
      exact use_conserved h hhandle what
  | edit index contents =>
    cases hhandle : s.handles[index]? with
    | none =>
      simp only [State.next, hhandle]
      exact h
    | some handle =>
      simp only [State.next, hhandle]
      exact edit_conserved h hhandle contents
  | advance index choice =>
    cases htask : s.tasks[index]? with
    | none =>
      simp only [State.next, htask]
      exact h
    | some task =>
      simp only [State.next, htask]
      exact advance_conserved h htask choice
  | finish index =>
    cases htask : s.tasks[index]? with
    | none =>
      simp only [State.next, htask]
      exact h
    | some task =>
      simp only [State.next, htask]
      exact finish_conserved h htask
  | dropSlot pool =>
    exact ⟨h.counted, h.limited, h.sound, h.idle, h.idleStands, h.handles,
      fun p hp => h.slots p (List.mem_of_mem_erase hp), h.dropped,
      fun task htask => (h.tasks task htask).transfer fun _ _ hp => hp⟩
  | dropCore pool => exact dropCore_conserved h henabled.1 henabled.2.2

theorem reachable_conserved {s : State α}
    (h : (machine pools limit).Reachable State.initial s) : Conserved pools limit s :=
  reachable_invariant (I := Conserved pools limit)
    (fun _ _ hs henabled => step_conserved hs henabled) conserved_initial h

/-- A growth that failed left its guard alone, and the counter lost what it took from the queues. -/
theorem failed_growth {s : State α} (h : Conserved pools limit s) {task : Activity α}
    (hmem : task ∈ s.tasks) {handle left : Handle α} {newLen : ℕ} {error : PoolError}
    (hrequest : task.request = .grow handle newLen)
    (hprogram : task.program = .ret (.holds (.error error) left)) :
    left = handle ∧ task.added + task.took = 0 := by
  obtain ⟨hruns, _, _, haccount⟩ := h.tasks task hmem
  rw [hprogram, hrequest] at hruns
  obtain ⟨hledger, _, hguard⟩ := hruns
  obtain rfl : handle = left := Option.some.inj (hguard error rfl)
  refine ⟨rfl, ?_⟩
  rw [hledger, hrequest] at haccount
  simp only [Request.ledger, Nat.add_zero, Nat.cast_zero] at haccount
  omega

theorem empty_at_end {s : State α} (h : Conserved pools limit s) (hhandles : s.handles = [])
    (htasks : s.tasks = []) (hdropped : ∀ pool ∈ s.begun, pool ∈ s.dropped) :
    s.region.current = 0 := by
  have hidle : s.region.idle = [] := by
    refine List.eq_nil_iff_forall_not_mem.mpr fun entry hentry => ?_
    obtain ⟨hbegun, hstands⟩ := h.idleStands entry hentry
    exact hstands (hdropped _ hbegun)
  have hcounted := h.counted
  unfold owedBytes handBytes handleBytes at hcounted
  rw [hidle, hhandles, htasks] at hcounted
  simpa [idleBytes] using hcounted

end Invariant

variable {pools limit}

/-- The budget of a region in every state of every run: the counter is the bytes of all buffers
and the open reservations, less what growths still owe for buffers they replace; it stays within
the limit and no release finds too little in it; a failed growth leaves its buffer alone and lowers
the counter by what it took from the queues and did not put back; and nothing is left at the end. -/
theorem region_conserved {s : State α} (h : (machine pools limit).Reachable State.initial s) :
    s.region.current + owedBytes s =
        idleBytes pools s.region.idle + handleBytes pools s + handBytes s ∧
      s.region.current ≤ limit ∧ s.region.underflowed = false ∧
      (∀ task ∈ s.tasks, ∀ handle newLen error left, task.request = .grow handle newLen →
        task.program = .ret (.holds (.error error) left) →
        left = handle ∧ task.added + task.took = 0) ∧
      (s.handles = [] → s.tasks = [] → (∀ pool ∈ s.begun, pool ∈ s.dropped) →
        s.region.current = 0) := by
  have hs := reachable_conserved h
  refine ⟨hs.counted, hs.limited, hs.sound, ?_, empty_at_end hs⟩
  intro task hmem handle newLen error left hrequest hprogram
  exact failed_growth hs hmem hrequest hprogram

/-- One shard, bytes, two eager payloads of four bytes. -/
def twoEager : ℕ → PoolCore := fun _ => ⟨1, 1, 2, 4, 2, 0⟩

def advances (n : ℕ) : List (Label ℕ) := List.replicate n (.advance 0 ⟨some 0⟩)

/-- The pool is built, and one of its two payloads acquired. -/
def oneAcquired : List (Label ℕ) :=
  .build 0 :: advances 8 ++ [.finish 0, .install [0], .acquire 0 0] ++ advances 2 ++ [.finish 0]

def growTooFar : List (Label ℕ) := .use 0 (.grow 100) :: advances 15

def Activity.failed (task : Activity α) : Bool :=
  match task.program with
  | .ret (.holds (.error _) _) => true
  | _ => false

def afterGrowth : State ℕ :=
  (machine twoEager 10).runTrace State.initial (oneAcquired ++ growTooFar)

theorem region_conserved_after_growth :
    afterGrowth.region.current + owedBytes afterGrowth =
      idleBytes twoEager afterGrowth.region.idle + handleBytes twoEager afterGrowth +
        handBytes afterGrowth :=
  have hreached : (machine twoEager 10).Reachable State.initial afterGrowth :=
    ⟨oneAcquired ++ growTooFar, by decide, rfl⟩
  (region_conserved hreached).1

/-- The growth is the only operation under way; it fails, and of the 8 bytes counted 4 are gone. -/
theorem failed_growth_reclaimed :
    (machine twoEager 10).ValidTrace State.initial (oneAcquired ++ growTooFar) ∧
      ((machine twoEager 10).runTrace State.initial oneAcquired).region.current = 8 ∧
      ((machine twoEager 10).runTrace State.initial oneAcquired).tasks.length = 0 ∧
      afterGrowth.region.current = 4 ∧ afterGrowth.tasks.map Activity.failed = [true] := by
  decide

end RegionConservation

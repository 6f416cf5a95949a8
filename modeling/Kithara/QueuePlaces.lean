import Kithara.RegionConservation

/-! Where idle values lie: only in queues that their pools have. An operation pushes into no other
shard than one of its pool, and a cold queue that was not built takes nothing. -/
namespace QueuePlaces

open AtomicPrograms PoolOperations PoolAccounts PoolRegion RegionConservation TransitionSystem

variable {α β γ ι σ : Type} (pools : ℕ → PoolCore)

/-- The pool has this queue. -/
def HasQueue : Slot → Prop
  | .shard pool index => index < (pools pool).shards
  | .cold pool => 0 < (pools pool).initialBuffers

def Places : Op α → Prop
  | .push (.shard pool index) _ => index < (pools pool).shards
  | _ => True

def placing : Rules (Op α) Op.Answer Unit where
  pre := fun _ => Places pools
  answers := fun _ _ _ => True
  after := fun _ _ _ => ()

/-- The program pushes into the shards of its pool only, whatever it is answered. -/
def Keeps (prog : Program α β) : Prop := (placing pools).Meets (fun _ _ => True) prog ()

section

variable {pools}

theorem keeps_pure (b : β) : Keeps pools (pure b : Program α β) := trivial

theorem keeps_bind {prog : Program α β} {f : β → Program α γ} (h : Keeps pools prog)
    (hf : ∀ b, Keeps pools (f b)) : Keeps pools (prog >>= f) :=
  meets_bind (meets_mono (fun b _ _ => hf b) h)

theorem keeps_forEach {body : ι → σ → Program α (Flow σ β)} (h : ∀ x s, Keeps pools (body x s))
    (xs : List ι) (s : σ) : Keeps pools (forEach body xs s) := by
  induction xs generalizing s with
  | nil => exact keeps_pure _
  | cons x xs ih =>
    refine keeps_bind (h x s) fun flow => ?_
    cases flow with
    | next s' => exact ih s'
    | stop s' => exact keeps_pure _
    | found b => exact keeps_pure _

theorem keeps_op {op : Op α} (h : Places pools op) : Keeps pools (Prog.op op) :=
  ⟨h, fun _ _ => trivial⟩

theorem keeps_release (charge : Charge) : Keeps pools (release charge : Program α Unit) := by
  unfold release
  split
  · exact keeps_op trivial
  · exact keeps_pure _

theorem keeps_reserve (limit amount : ℕ) :
    Keeps pools (reserve limit amount : Program α (Except PoolError Unit)) := by
  unfold reserve
  split
  · refine keeps_bind (keeps_op trivial) fun answer => ?_
    cases answer <;> exact keeps_pure _
  · exact keeps_pure _

theorem keeps_allocate (limit pool capacity oldBytes : ℕ) :
    Keeps (α := α) pools (allocate pools limit pool capacity oldBytes) := by
  unfold allocate
  cases (pools pool).bytesForCapacity capacity with
  | error error => exact keeps_pure _
  | ok requestedBytes =>
    dsimp only
    split
    · exact keeps_pure _
    refine keeps_bind (keeps_reserve _ _) fun reserved => ?_
    cases reserved with
    | error error => exact keeps_pure _
    | ok _ =>
      refine keeps_bind (keeps_op trivial) fun fresh => ?_
      cases fresh with
      | none =>
        refine keeps_bind (keeps_op trivial) fun current => ?_
        exact keeps_bind (keeps_release _) fun _ => keeps_pure _
      | some grown =>
        dsimp only
        cases (pools pool).byteSize grown with
        | error error => exact keeps_bind (keeps_release _) fun _ => keeps_pure _
        | ok actualBytes =>
          dsimp only
          split
          · exact keeps_bind (keeps_release _) fun _ => keeps_pure _
          split
          · refine keeps_bind (keeps_reserve _ _) fun extra => ?_
            cases extra with
            | error error => exact keeps_bind (keeps_release _) fun _ => keeps_pure _
            | ok _ => exact keeps_bind (keeps_op trivial) fun _ => keeps_pure _
          · refine keeps_bind (keeps_release _) fun _ => ?_
            exact keeps_bind (keeps_op trivial) fun _ => keeps_pure _

theorem keeps_releaseValue (pool : ℕ) (value : Buffer α) :
    Keeps pools (releaseValue pools pool value) :=
  keeps_bind (keeps_release _) fun _ => keeps_pure _

theorem keeps_put {pool shard : ℕ} (value : Buffer α) (h : shard < (pools pool).shards) :
    Keeps pools (put pools pool value shard) := by
  unfold put
  split
  · refine keeps_bind (keeps_op h) fun pushed => ?_
    cases pushed with
    | ok _ => exact keeps_pure _
    | error value => exact keeps_bind (keeps_releaseValue _ _) fun _ => keeps_pure _
  · exact keeps_bind (keeps_releaseValue _ _) fun _ => keeps_pure _

theorem keeps_trySteal (pool home : ℕ) : Keeps (α := α) pools (trySteal pools pool home) := by
  unfold trySteal
  refine keeps_bind (keeps_forEach (fun offset _ => ?_) _ _) fun found => ?_
  · refine keeps_bind (keeps_op trivial) fun answer => ?_
    cases answer <;> exact keeps_pure _
  · cases found <;> exact keeps_pure _

theorem keeps_popCold (pool : ℕ) : Keeps (α := α) pools (popCold pools pool) := by
  unfold popCold
  split
  · exact keeps_op trivial
  · exact keeps_pure _

theorem keeps_acquire (pool shard : ℕ) :
    Keeps (α := α) pools (PoolOperations.acquire pools pool shard) := by
  unfold PoolOperations.acquire
  refine keeps_bind (keeps_op trivial) fun home => ?_
  cases home with
  | some value => exact keeps_pure _
  | none =>
    refine keeps_bind (keeps_trySteal _ _) fun stolen => ?_
    cases stolen with
    | some value => exact keeps_pure _
    | none =>
      refine keeps_bind (keeps_popCold _) fun cold => ?_
      cases cold <;> exact keeps_pure _

theorem keeps_putCold {pool home : ℕ} (value : Buffer α) (h : home < (pools pool).shards) :
    Keeps pools (putCold pools pool home value) := by
  unfold putCold
  refine keeps_bind (keeps_op trivial) fun pushed => ?_
  cases pushed with
  | ok _ => exact keeps_pure _
  | error value => exact keeps_put value h

theorem keeps_reuseFrom {slot : Slot} {giveBack : Buffer α → Program α Unit} {pool home newLen : ℕ}
    {current : Buffer α} (hback : ∀ value, Keeps pools (giveBack value))
    (hhome : home < (pools pool).shards) :
    Keeps pools (reuseFrom pools slot giveBack pool home current newLen) := by
  unfold reuseFrom
  refine keeps_bind (keeps_op trivial) fun candidates => keeps_forEach (fun _ _ => ?_) _ _
  refine keeps_bind (keeps_op trivial) fun answer => ?_
  cases answer with
  | none => exact keeps_pure _
  | some value =>
    dsimp only
    split
    · refine keeps_bind (keeps_op trivial) fun value => ?_
      exact keeps_bind (keeps_put _ hhome) fun _ => keeps_pure _
    · exact keeps_bind (hback value) fun _ => keeps_pure _

theorem keeps_reuseForGrowth {pool home newLen : ℕ} {current : Buffer α}
    (hhome : home < (pools pool).shards) :
    Keeps pools (reuseForGrowth pools pool current newLen home) := by
  have hshards : 0 < (pools pool).shards := by omega
  unfold reuseForGrowth
  refine keeps_bind (keeps_forEach (fun offset _ => ?_) _ _) fun found => ?_
  · refine keeps_bind (keeps_reuseFrom (fun value => keeps_put value ?_) hhome) fun scanned => ?_
    · exact Nat.mod_lt _ hshards
    · cases scanned <;> exact keeps_pure _
  · cases found with
    | inr value => exact keeps_pure _
    | inl _ =>
      dsimp only
      split
      · refine keeps_bind (keeps_reuseFrom (fun value => keeps_putCold value hhome) hhome) ?_
        intro scanned
        cases scanned <;> exact keeps_pure _
      · exact keeps_pure _

theorem keeps_releaseFrom (slot : Slot) (pool target released : ℕ) :
    Keeps (α := α) pools (releaseFrom pools slot pool target released) := by
  unfold releaseFrom
  refine keeps_bind (keeps_op trivial) fun candidates => keeps_forEach (fun _ released => ?_) _ _
  refine keeps_bind (keeps_op trivial) fun answer => ?_
  cases answer with
  | none => exact keeps_pure _
  | some value =>
    refine keeps_bind (keeps_releaseValue _ _) fun bytes => ?_
    dsimp only
    split <;> exact keeps_pure _

theorem keeps_releaseIdle (pool target : ℕ) :
    Keeps (α := α) pools (releaseIdle pools pool target) := by
  unfold releaseIdle
  split
  · exact keeps_pure _
  refine keeps_bind (keeps_forEach (fun index released => ?_) _ _) fun scanned => ?_
  · refine keeps_bind (keeps_releaseFrom _ _ _ _) fun result => ?_
    cases result <;> exact keeps_pure _
  · cases scanned with
    | inr released => exact keeps_pure _
    | inl released =>
      dsimp only
      split
      · refine keeps_bind (keeps_releaseFrom _ _ _ _) fun result => ?_
        cases result <;> exact keeps_pure _
      · exact keeps_pure _

theorem keeps_reclaim (target : ℕ) :
    Keeps (α := α) pools (PoolOperations.reclaim pools target) := by
  unfold PoolOperations.reclaim
  split
  · exact keeps_pure _
  refine keeps_bind (keeps_op trivial) fun reclaimers => ?_
  cases reclaimers with
  | none => exact keeps_pure _
  | some reclaimers =>
    dsimp only
    split
    · exact keeps_pure _
    refine keeps_bind (keeps_op trivial) fun next => ?_
    refine keeps_bind (keeps_forEach (fun offset released => ?_) _ _) fun scanned => ?_
    · refine keeps_bind (keeps_op trivial) fun upgraded => ?_
      cases upgraded with
      | false => exact keeps_pure _
      | true =>
        refine keeps_bind (keeps_releaseIdle _ _) fun freed => ?_
        refine keeps_bind (keeps_op trivial) fun _ => ?_
        split <;> exact keeps_pure _
    · cases scanned <;> exact keeps_pure _

theorem keeps_reclaimFor (error : PoolError) :
    Keeps (α := α) pools (reclaimFor pools error) := by
  cases error with
  | overallBudgetExceeded additionalBytes allocatedBytes maxBytes =>
    exact keeps_bind (keeps_reclaim _) fun _ => keeps_pure _
  | _ => exact keeps_pure _

theorem keeps_installGrown (grown current : Buffer α) (oldBytes : ℕ) :
    Keeps pools (installGrown grown current oldBytes) :=
  keeps_bind (keeps_op trivial) fun _ => keeps_bind (keeps_op trivial) fun _ => keeps_pure _

theorem keeps_grow {limit pool home newLen : ℕ} {current : Buffer α}
    (hhome : home < (pools pool).shards) :
    Keeps pools (PoolOperations.grow pools limit pool current newLen home) := by
  unfold PoolOperations.grow
  split
  · exact keeps_pure _
  split
  · exact keeps_pure _
  · exact keeps_pure _
  split
  · exact keeps_pure _
  refine keeps_bind (keeps_op trivial) fun allocated => ?_
  refine keeps_bind (keeps_allocate _ _ _ _) fun first => ?_
  cases first with
  | ok grown => exact keeps_installGrown _ _ _
  | error error =>
    dsimp only
    unfold growUnderPressure
    refine keeps_bind ?_ fun reused => ?_
    · unfold reuseAfter
      split
      · exact keeps_reuseForGrowth hhome
      · exact keeps_pure _
    cases reused with
    | some value => exact keeps_pure _
    | none =>
      refine keeps_bind (keeps_reclaimFor error) fun reclaimed => ?_
      split
      · refine keeps_bind (keeps_allocate _ _ _ _) fun second => ?_
        cases second with
        | ok grown => exact keeps_installGrown _ _ _
        | error error => exact keeps_pure _
      · exact keeps_pure _

theorem keeps_normalize (pool : ℕ) (current : Buffer α) :
    Keeps pools (PoolOperations.normalize pools pool current) := by
  unfold PoolOperations.normalize
  split
  · exact keeps_pure _
  · exact keeps_bind (keeps_releaseValue _ _) fun _ => keeps_pure _

theorem keeps_renew {pool shard : ℕ} (current : Buffer α) (h : shard < (pools pool).shards) :
    Keeps pools (PoolOperations.renew pools pool current shard) :=
  keeps_bind (keeps_put current h) fun _ => keeps_pure _

theorem keeps_shrinkTo (pool : ℕ) (current : Buffer α) (minCapacity : ℕ) :
    Keeps pools (PoolOperations.shrinkTo pools pool current minCapacity) :=
  keeps_bind (keeps_op trivial) fun _ => keeps_bind (keeps_release _) fun _ => keeps_pure _

theorem keeps_newCore (limit pool : ℕ) :
    Keeps (α := α) pools (newCore pools limit pool) := by
  unfold newCore
  cases (pools pool).validate with
  | error error => exact keeps_pure _
  | ok _ =>
    refine keeps_bind (keeps_forEach (fun _ _ => ?_) _ _) fun filled => ?_
    · unfold fillCold
      refine keeps_bind (keeps_allocate _ _ _ _) fun fresh => ?_
      cases fresh with
      | error error => exact keeps_pure _
      | ok value =>
        refine keeps_bind (keeps_op trivial) fun pushed => ?_
        cases pushed with
        | ok _ => exact keeps_pure _
        | error value =>
          dsimp only
          cases (pools pool).byteSize value with
          | error error => exact keeps_pure _
          | ok bytes => exact keeps_bind (keeps_release _) fun _ => keeps_pure _
    · cases filled <;> exact keeps_pure _

theorem keeps_dropCore (pool : ℕ) (values : List (Buffer α)) :
    Keeps pools (PoolOperations.dropCore pools pool values) := by
  unfold PoolOperations.dropCore
  refine keeps_bind (keeps_forEach (fun value _ => ?_) _ _) fun _ => keeps_pure _
  exact keeps_bind (keeps_releaseValue _ _) fun _ => keeps_pure _

end

/-- The guard an operation leaves goes back to a shard of its pool. -/
def Homed : Outcome α → Prop
  | .holds _ handle => handle.shard < (pools handle.pool).shards
  | _ => True

/-- The same of the guard or the shard an operation starts with. -/
def Home : Request α → Prop
  | .acquire pool shard => shard < (pools pool).shards
  | .grow handle _ => handle.shard < (pools handle.pool).shards
  | .normalize handle => handle.shard < (pools handle.pool).shards
  | .renew handle => handle.shard < (pools handle.pool).shards
  | .shrinkTo handle _ => handle.shard < (pools handle.pool).shards
  | .drop handle => handle.shard < (pools handle.pool).shards
  | _ => True

def HomedTask (prog : Program α (Outcome α)) : Prop :=
  (placing pools).Meets (fun outcome _ => Homed pools outcome) prog ()

section

variable {pools}

theorem homed_bind {prog : Program α β} {f : β → Program α (Outcome α)} (h : Keeps pools prog)
    (hf : ∀ b, HomedTask pools (f b)) : HomedTask pools (prog >>= f) :=
  meets_bind (meets_mono (fun b _ _ => hf b) h)

theorem request_homed (limit : ℕ) {request : Request α} (h : Home pools request) :
    HomedTask pools (request.program pools limit) := by
  cases request with
  | build pool =>
    refine homed_bind (keeps_newCore limit pool) fun built => ?_
    cases built <;> trivial
  | acquire pool shard => exact homed_bind (keeps_acquire pool shard) fun _ => h
  | grow handle newLen => exact homed_bind (keeps_grow h) fun _ => h
  | normalize handle => exact homed_bind (keeps_normalize _ _) fun _ => h
  | renew handle => exact homed_bind (keeps_renew _ h) fun _ => h
  | shrinkTo handle minCapacity => exact homed_bind (keeps_shrinkTo _ _ _) fun _ => h
  | drop handle => exact homed_bind (keeps_put _ h) fun _ => trivial
  | reclaim target => exact homed_bind (keeps_reclaim target) fun _ => trivial
  | dropCore pool values => exact homed_bind (keeps_dropCore pool values) fun _ => trivial

end

variable (limit : ℕ)

/-- Every idle value lies in a queue its pool has. -/
structure InPlace (s : State α) : Prop where
  idle : ∀ entry ∈ s.region.idle, HasQueue pools entry.1
  handles : ∀ handle ∈ s.handles, handle.shard < (pools handle.pool).shards
  tasks : ∀ task ∈ s.tasks, HomedTask pools task.program

section

variable {pools limit}

/-- What a step adds to the queues is what it pushed. -/
theorem perform_idle (alive : ℕ → Bool) (choice : Choice) (r : Region α) (op : Op α)
    {entry : Slot × Buffer α} (h : entry ∈ (r.perform pools limit alive choice op).1.idle) :
    entry ∈ r.idle ∨ op = .push entry.1 entry.2 ∧
      queued entry.1 r.idle < (pools entry.1.pool).slotCapacity entry.1 := by
  cases op with
  | tryGet slot =>
    rcases tryGet_cases r slot with hsame | ⟨value, rest, hfound, hgot⟩
    · simp only [Region.perform, hsame] at h
      exact Or.inl h
    · simp only [Region.perform, hgot] at h
      exact Or.inl ((takeFirst_found pools hfound).2.1 entry h)
  | push slot value =>
    simp only [Region.perform, Region.push] at h
    split at h
    · rename_i hroom
      rcases List.mem_append.mp h with h | h
      · exact Or.inl h
      · obtain rfl := List.mem_singleton.mp h
        exact Or.inr ⟨rfl, hroom⟩
    · exact Or.inl h
  | tryAcquire amount =>
    simp only [Region.perform, Region.tryAcquire] at h
    split at h
    · exact Or.inl h
    · split at h <;> exact Or.inl h
  | release charge =>
    simp only [Region.perform, Region.release] at h
    split at h <;> exact Or.inl h
  | _ => exact Or.inl h

theorem spawn_inPlace {s : State α} {request : Request α} (h : Home pools request)
    (hidle : ∀ entry ∈ s.region.idle, HasQueue pools entry.1)
    (hhandles : ∀ handle ∈ s.handles, handle.shard < (pools handle.pool).shards)
    (htasks : ∀ task ∈ s.tasks, HomedTask pools task.program) :
    InPlace pools (s.spawn pools limit request) where
  idle := hidle
  handles := hhandles
  tasks := by
    intro task htask
    rcases List.mem_append.mp htask with htask | htask
    · exact htasks task htask
    · obtain rfl := List.mem_singleton.mp htask
      exact request_homed limit h

theorem advance_inPlace {s : State α} (h : InPlace pools s) {index : ℕ} {task : Activity α}
    (htask : s.tasks[index]? = some task) (choice : Choice) :
    InPlace pools (s.advance pools limit index task choice) := by
  have hprog := h.tasks task (List.mem_of_getElem? htask)
  unfold State.advance
  cases hprogram : task.program with
  | ret outcome => exact h
  | call op k =>
    rw [hprogram] at hprog
    obtain ⟨hplaces, hnext⟩ := hprog
    refine ⟨fun entry hentry => ?_, h.handles, fun other hother => ?_⟩
    · rcases perform_idle _ _ _ _ hentry with hold | ⟨rfl, hroom⟩
      · exact h.idle entry hold
      · obtain ⟨slot, value⟩ := entry
        cases slot with
        | shard pool shard => exact hplaces
        | cold pool => exact Nat.lt_of_le_of_lt (Nat.zero_le _) hroom
    · rcases List.mem_or_eq_of_mem_set hother with hother | rfl
      · exact h.tasks other hother
      · exact hnext _ trivial

theorem finish_inPlace {s : State α} (h : InPlace pools s) {index : ℕ} {task : Activity α}
    (htask : s.tasks[index]? = some task) : InPlace pools (s.finish index task) := by
  have hprog := h.tasks task (List.mem_of_getElem? htask)
  have hothers : ∀ other ∈ s.tasks.eraseIdx index, HomedTask pools other.program :=
    fun other hother => h.tasks other (List.mem_of_mem_eraseIdx hother)
  unfold State.finish
  cases hprogram : task.program with
  | call op k => exact h
  | ret outcome =>
    rw [hprogram] at hprog
    cases outcome with
    | holds result handle =>
      refine ⟨h.idle, fun other hother => ?_, hothers⟩
      rcases List.mem_append.mp hother with hother | hother
      · exact h.handles other hother
      · obtain rfl := List.mem_singleton.mp hother
        exact hprog
    | _ => exact ⟨h.idle, h.handles, hothers⟩

theorem step_inPlace {s : State α} {label : Label α} (h : InPlace pools s)
    (henabled : s.Enabled pools label) : InPlace pools (s.next pools limit label) := by
  cases label with
  | build pool => exact spawn_inPlace (s := { s with begun := _ }) trivial h.idle h.handles h.tasks
  | install reclaimers => exact ⟨h.idle, h.handles, h.tasks⟩
  | acquire pool shard => exact spawn_inPlace henabled.2 h.idle h.handles h.tasks
  | reclaim target => exact spawn_inPlace trivial h.idle h.handles h.tasks
  | use index what =>
    cases hhandle : s.handles[index]? with
    | none =>
      simp only [State.next, hhandle]
      exact h
    | some handle =>
      simp only [State.next, hhandle]
      have hhome := h.handles handle (List.mem_of_getElem? hhandle)
      refine spawn_inPlace ?_ h.idle
        (fun other hother => h.handles other (List.mem_of_mem_eraseIdx hother)) h.tasks
      cases what <;> exact hhome
  | edit index contents =>
    cases hhandle : s.handles[index]? with
    | none =>
      simp only [State.next, hhandle]
      exact h
    | some handle =>
      simp only [State.next, hhandle]
      have hhome := h.handles handle (List.mem_of_getElem? hhandle)
      refine ⟨h.idle, fun other hother => ?_, h.tasks⟩
      rcases List.mem_or_eq_of_mem_set hother with hother | rfl
      · exact h.handles other hother
      · unfold Handle.edit
        split <;> exact hhome
  | advance index choice =>
    cases htask : s.tasks[index]? with
    | none =>
      simp only [State.next, htask]
      exact h
    | some task =>
      simp only [State.next, htask]
      exact advance_inPlace h htask choice
  | finish index =>
    cases htask : s.tasks[index]? with
    | none =>
      simp only [State.next, htask]
      exact h
    | some task =>
      simp only [State.next, htask]
      exact finish_inPlace h htask
  | dropSlot pool => exact ⟨h.idle, h.handles, h.tasks⟩
  | dropCore pool =>
    refine spawn_inPlace trivial (fun entry hentry => ?_) h.handles h.tasks
    exact h.idle entry (List.mem_filter.mp hentry).1

theorem reachable_inPlace {s : State α} (h : (machine pools limit).Reachable State.initial s) :
    InPlace pools s := by
  refine reachable_invariant (I := InPlace pools)
    (fun _ _ hs henabled => step_inPlace hs henabled) ?_ h
  exact ⟨fun _ h => absurd h List.not_mem_nil, fun _ h => absurd h List.not_mem_nil,
    fun _ h => absurd h List.not_mem_nil⟩

end

end QueuePlaces

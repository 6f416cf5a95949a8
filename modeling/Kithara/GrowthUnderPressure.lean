import Kithara.LoneGrowth

/-! What is available is given: between the calls of a single thread, a growth that the limit allows
once all idle values are counted as free succeeds, and a reclaim frees what was asked if it is
there, wherever the idle values lie and the rotation stands. -/
namespace GrowthUnderPressure

open AtomicPrograms PoolOperations PoolAccounts PoolRegion RegionConservation QueuePlaces
  LoneThread LoneGrowth TransitionSystem

variable {α β : Type} {pools : ℕ → PoolCore} {limit : ℕ}

def State.standing (s : State α) (pool : ℕ) : Bool :=
  decide (pool ∈ s.slots) || s.handles.any fun handle => handle.pool == pool

/-- Between two calls of one thread: nothing is under way, and a pool that nothing holds is gone. -/
structure AtRest (s : State α) : Prop where
  quiet : s.tasks = []
  gone : ∀ pool ∈ s.begun, s.alive pool = false → pool ∈ s.dropped

/-- Every pool there is stands in the inventory, which is a slice of references of two words. -/
structure Registered (s : State α) (reclaimers : List ℕ) : Prop where
  installed : s.region.reclaimers = some reclaimers
  slice : 16 * reclaimers.length < 2 ^ 63
  every : ∀ pool, State.Stands s pool → pool ∈ reclaimers

def call (label : Label α) (n : ℕ) : List (Label α) :=
  label :: List.replicate n (.advance 0 exactly)

theorem alive_lone {s : State α} {task : Activity α} (h : s.tasks = [task]) :
    s.alive = fun pool => State.standing s pool || decide (pool ∈ task.ledger.refs) := by
  funext pool
  unfold State.alive State.standing
  rw [h, List.any_cons, List.any_nil, Bool.or_false]

theorem refs_after (l : Ledger) (op : Op α) (answer : op.Answer) :
    (l.after pools op answer).refs = refsAfter l.refs op answer := by
  cases op with
  | tryGet slot => cases answer <;> rfl
  | push slot value => cases answer <;> rfl
  | tryAcquire amount => cases answer <;> rfl
  | release charge => cases charge <;> rfl
  | upgrade pool => cases answer <;> rfl
  | _ => rfl

theorem runs_alone {Q : Outcome α → Region α × List ℕ → Prop} (prog : Program α (Outcome α)) :
    ∀ (s : State α) (task : Activity α), s.tasks = [task] → task.program = prog →
      Alone pools limit (State.standing s) Q prog (s.region, task.ledger.refs) →
      ∃ n outcome task' refs,
        (machine pools limit).ValidTrace s (.replicate n (.advance 0 exactly)) ∧
        ((machine pools limit).runTrace s (.replicate n (.advance 0 exactly))).tasks = [task'] ∧
        task'.program = .ret outcome ∧
        Q outcome (((machine pools limit).runTrace s (.replicate n (.advance 0 exactly))).region,
          refs) := by
  induction prog with
  | ret outcome =>
    intro s task htasks hprogram hmeets
    exact ⟨0, outcome, task, task.ledger.refs, trivial, htasks, hprogram, hmeets⟩
  | call op k ih =>
    intro s task htasks hprogram hmeets
    have hget : s.tasks[0]? = some task := by rw [htasks]; rfl
    have hnext : (machine pools limit).next s (.advance 0 exactly) =
        s.advance pools limit 0 task exactly := by
      simp only [machine, State.next, hget]
    have hstep : s.region.perform pools limit s.alive exactly op =
        step pools limit (State.standing s) (s.region, task.ledger.refs) op := by
      rw [step, alive_lone htasks]
    have hgoes := hmeets.2 _ rfl
    simp only [lone] at hgoes
    obtain ⟨n, outcome, task', refs, hvalid, hdone, hret, hq⟩ := ih
      (step pools limit (State.standing s) (s.region, task.ledger.refs) op).2
      (s.advance pools limit 0 task exactly)
      ⟨task.request, k (step pools limit (State.standing s) (s.region, task.ledger.refs) op).2,
        task.ledger.after pools op
          (step pools limit (State.standing s) (s.region, task.ledger.refs) op).2, _, _⟩
      (by
        unfold State.advance
        rw [hprogram]
        dsimp only
        rw [htasks, hstep]
        rfl) rfl (by
        unfold State.advance
        rw [hprogram]
        dsimp only
        rw [hstep, refs_after]
        exact hgoes)
    refine ⟨n + 1, outcome, task', refs, ⟨?_, ?_⟩, ?_, hret, ?_⟩
    · show (s.tasks[0]?).any Activity.calls = true
      rw [hget]
      simp only [Option.any_some, Activity.calls, hprogram]
    · rw [hnext]
      exact hvalid
    · rw [List.replicate_succ, runTrace_cons, hnext]
      exact hdone
    · rw [List.replicate_succ, runTrace_cons, hnext]
      exact hq

theorem alive_quiet {s : State α} (h : s.tasks = []) : s.alive = State.standing s := by
  funext pool
  unfold State.alive State.standing
  rw [h, List.any_nil, Bool.or_false]

theorem AtRest.standing {s : State α} (h : AtRest s) {pool : ℕ} (hstands : State.Stands s pool) :
    State.standing s pool = true := by
  by_contra hdead
  refine hstands.2 (h.gone pool hstands.1 ?_)
  rw [alive_quiet h.quiet]
  exact Bool.not_eq_true _ ▸ hdead

theorem Registered.count {s : State α} {reclaimers : List ℕ} (h : Registered s reclaimers) :
    reclaimers.length ≤ 2 ^ 63 := by
  have := h.slice
  omega

theorem counted_quiet {s : State α} (h : Conserved pools limit s) (hquiet : s.tasks = []) :
    s.region.current = idleBytes pools s.region.idle + handleBytes pools s := by
  have hcounted := h.counted
  unfold owedBytes handBytes at hcounted
  rw [hquiet] at hcounted
  simpa using hcounted

theorem standing_without {s : State α} {index : ℕ} {handle : Handle α}
    (hhandle : s.handles[index]? = some handle) {pool : ℕ} (h : State.standing s pool = true) :
    State.standing { s with handles := s.handles.eraseIdx index } pool = true ∨
      pool ∈ [handle.pool] := by
  unfold State.standing at h ⊢
  rw [Bool.or_eq_true] at h ⊢
  rcases h with hslot | hheld
  · exact Or.inl (Or.inl hslot)
  obtain ⟨other, hmem, hpool⟩ := List.any_eq_true.mp hheld
  have heq : other.pool = pool := beq_iff_eq.mp hpool
  by_cases hsame : pool = handle.pool
  · exact Or.inr (List.mem_singleton.mpr hsame)
  refine Or.inl (Or.inr (List.any_eq_true.mpr ⟨other, ?_, hpool⟩))
  obtain ⟨i, hi⟩ := List.mem_iff_getElem?.mp hmem
  refine List.mem_eraseIdx_iff_getElem?.mpr ⟨i, ?_, hi⟩
  rintro rfl
  rw [hhandle] at hi
  exact hsame (heq.symm.trans (congrArg Handle.pool (Option.some.inj hi)).symm)

def Kept (pools : ℕ → PoolCore) (standing : ℕ → Bool) (refs reclaimers : List ℕ) (slot : Slot) :
    Prop :=
  HasQueue pools slot ∧ (standing slot.pool = true ∨ slot.pool ∈ refs) ∧ slot.pool ∈ reclaimers

theorem kept_reclaimable (pools : ℕ → PoolCore) (standing : ℕ → Bool) (refs reclaimers : List ℕ) :
    Reclaimable pools standing refs reclaimers (Kept pools standing refs reclaimers) :=
  ⟨fun _ h => h.1, fun _ h => h.2.1, fun _ h => h.2.2⟩

theorem stock_quiet {s : State α} (h : (machine pools limit).Reachable State.initial s)
    (hrest : AtRest s) {reclaimers refs : List ℕ} (hregistered : Registered s reclaimers)
    {standing : ℕ → Bool} (hstanding : ∀ pool, State.standing s pool = true →
      standing pool = true ∨ pool ∈ refs) :
    Stock pools (Kept pools standing refs reclaimers) (handleBytes pools s) s.region := by
  have hconserved := reachable_conserved h
  refine ⟨counted_quiet hconserved hrest.quiet, hconserved.idle, fun entry hentry => ?_⟩
  have hstands := hconserved.idleStands entry hentry
  exact ⟨(reachable_inPlace h).idle entry hentry, hstanding _ (hrest.standing hstands),
    hregistered.every _ hstands⟩

/-- The growth of a guard `handle`, and what the limit must leave for it: the bytes of all that is
handed out with this buffer at its new length, and of nothing that is idle. -/
def Affordable (pools : ℕ → PoolCore) (limit : ℕ) (s : State α) (handle : Handle α) (newLen : ℕ) :
    Prop :=
  newLen * (pools handle.pool).elementBytes - handle.bytes pools ≤ limit - handleBytes pools s

def Grown (pools : ℕ → PoolCore) (handle : Handle α) (newLen : ℕ) (outcome : Outcome α) : Prop :=
  ∃ value : Buffer α, outcome = .holds (.ok ()) ⟨handle.pool, handle.shard, value⟩ ∧
    value.contents = handle.value.contents ∧
    ((pools handle.pool).elementBytes = 0 ∨ newLen ≤ value.capacity)

theorem growth_succeeds {s : State α} (hrange : limit < usizeRange)
    (h : (machine pools limit).Reachable State.initial s) (hrest : AtRest s) {reclaimers : List ℕ}
    (hregistered : Registered s reclaimers) {index newLen : ℕ} {handle : Handle α}
    (hhandle : s.handles[index]? = some handle) (hafford : Affordable pools limit s handle newLen) :
    ∃ n task outcome, (machine pools limit).ValidTrace s (call (.use index (.grow newLen)) n) ∧
      ((machine pools limit).runTrace s (call (.use index (.grow newLen)) n)).tasks = [task] ∧
      task.program = .ret outcome ∧ Grown pools handle newLen outcome := by
  have hconserved := reachable_conserved h
  have hmem := List.mem_of_getElem? hhandle
  obtain ⟨hfits, hstands⟩ := hconserved.handles handle hmem
  have hnext : (machine pools limit).next s (.use index (.grow newLen)) =
      { s with handles := s.handles.eraseIdx index }.spawn pools limit (.grow handle newLen) := by
    simp only [machine, State.next, hhandle, Use.request]
  have htasks : ({ s with handles := s.handles.eraseIdx index }.spawn pools limit
      (.grow handle newLen)).tasks = [launch pools limit (.grow handle newLen)] := by
    simp only [State.spawn, hrest.quiet, List.nil_append]
  have hheld := sum_map_eraseIdx (Handle.bytes pools) hhandle
  have hcurrent : bytes pools handle.pool handle.value ≤ handleBytes pools s := by
    show handle.bytes pools ≤ (s.handles.map (Handle.bytes pools)).sum
    omega
  have hroom : handleBytes pools s + newLen * (pools handle.pool).elementBytes ≤
      limit + bytes pools handle.pool handle.value := by
    have hcounted := counted_quiet hconserved hrest.quiet
    have hlimited := hconserved.limited
    unfold Affordable Handle.bytes at hafford
    omega
  have hstock := stock_quiet h hrest hregistered
    fun pool hpool => standing_without hhandle hpool
  have halone : Alone pools limit (State.standing { s with handles := s.handles.eraseIdx index })
      (fun outcome _ => Grown pools handle newLen outcome)
      (Request.program pools limit (.grow handle newLen)) (s.region, [handle.pool]) := by
    refine meets_bind (alone_grow hrange hfits ((reachable_inPlace h).handles handle hmem) ?_
      (kept_reclaimable _ _ _ _) hregistered.installed hregistered.count hstock hconserved.limited
      hcurrent hroom ?_)
    · rintro slot hpool hqueue
      rw [← hpool] at hstands ⊢
      exact ⟨hqueue, Or.inr List.mem_cons_self, hregistered.every _ hstands⟩
    · intro value l hcontents hlen
      exact ⟨value, rfl, hcontents, hlen⟩
  obtain ⟨n, outcome, task, refs, hvalid, hdone, hret, hgrown⟩ :=
    runs_alone _ _ _ htasks rfl halone
  refine ⟨n, task, outcome, ⟨?_, ?_⟩, ?_, hret, hgrown⟩
  · exact (List.getElem?_eq_some_iff.mp hhandle).1
  · rw [hnext]
    exact hvalid
  · rw [call, runTrace_cons, hnext]
    exact hdone

theorem reclaim_frees {s : State α} (hrange : limit < usizeRange)
    (h : (machine pools limit).Reachable State.initial s) (hrest : AtRest s) {reclaimers : List ℕ}
    (hregistered : Registered s reclaimers) {target : ℕ}
    (hidle : target ≤ idleBytes pools s.region.idle) :
    ∃ n task, (machine pools limit).ValidTrace s (call (.reclaim target) n) ∧
      ((machine pools limit).runTrace s (call (.reclaim target) n)).tasks = [task] ∧
      task.program = .ret .gone ∧
      ((machine pools limit).runTrace s (call (.reclaim target) n)).region.current + target ≤
        s.region.current := by
  have htasks : (s.spawn pools limit (.reclaim target)).tasks =
      [launch pools limit (.reclaim target)] := by
    simp only [State.spawn, hrest.quiet, List.nil_append]
  have hstock : Stock pools (Kept pools (State.standing s) [] reclaimers) _ s.region :=
    stock_quiet h hrest hregistered fun pool hpool => Or.inl hpool
  have hkept := kept_reclaimable pools (State.standing s) [] reclaimers
  have halone : Alone pools limit (State.standing (s.spawn pools limit (.reclaim target)))
      (fun outcome l => outcome = .gone ∧ l.1.current + target ≤ s.region.current)
      (Request.program pools limit (.reclaim target)) (s.region, []) := by
    have hlimited := (reachable_conserved h).limited
    refine meets_bind (alone_reclaim (Nat.lt_of_le_of_lt hlimited hrange) hstock hkept.queues
      hkept.alive hregistered.installed hregistered.count hkept.registered ?_)
    intro freed r' hdrained hresult
    have hsum : freed + r'.current = s.region.current := hdrained.sum
    have hcounted := hstock.counted
    have hleft := hdrained.stock.counted
    refine ⟨rfl, ?_⟩
    dsimp only
    rcases hresult with henough | hnone
    · omega
    · have hzero : idleBytes pools r'.idle = 0 := by rw [hnone]; rfl
      omega
  obtain ⟨n, outcome, task, refs, hvalid, hdone, hret, rfl, hfreed⟩ :=
    runs_alone _ _ _ htasks rfl halone
  exact ⟨n, task, ⟨trivial, hvalid⟩, hdone, hret, hfreed⟩

/-- Between two calls, with every pool registered, memory that is there is found: a growth succeeds
and keeps the contents when its new bytes fit beside what is handed out, and a reclaim frees what
is asked for when that much is idle. -/
theorem pressure_met {s : State α} (hrange : limit < usizeRange)
    (h : (machine pools limit).Reachable State.initial s) (hrest : AtRest s) {reclaimers : List ℕ}
    (hregistered : Registered s reclaimers) :
    (∀ index newLen handle, s.handles[index]? = some handle →
      Affordable pools limit s handle newLen → ∃ n task outcome,
        (machine pools limit).ValidTrace s (call (.use index (.grow newLen)) n) ∧
        ((machine pools limit).runTrace s (call (.use index (.grow newLen)) n)).tasks = [task] ∧
        task.program = .ret outcome ∧ Grown pools handle newLen outcome) ∧
    ∀ target ≤ idleBytes pools s.region.idle, ∃ n task,
      (machine pools limit).ValidTrace s (call (.reclaim target) n) ∧
      ((machine pools limit).runTrace s (call (.reclaim target) n)).tasks = [task] ∧
      task.program = .ret .gone ∧
      ((machine pools limit).runTrace s (call (.reclaim target) n)).region.current + target ≤
        s.region.current :=
  ⟨fun _ _ _ hhandle hafford => growth_succeeds hrange h hrest hregistered hhandle hafford,
    fun _ hidle => reclaim_frees hrange h hrest hregistered hidle⟩

def twoPools : List (Label ℕ) :=
  .build 0 :: advances 8 ++ .finish 0 :: .build 1 :: advances 8 ++
    [.finish 0, .install [0, 1], .acquire 0 0] ++ advances 2 ++ [.finish 0]

def handedOut : State ℕ := (machine twoEager 18).runTrace State.initial twoPools

/-- The growth takes all the limit allows, and the idle payloads of both pools for it. -/
theorem pressure_met_across_pools :
    handedOut.region.current = 16 ∧ idleBytes twoEager handedOut.region.idle = 12 ∧
      ∃ n task outcome, (machine twoEager 18).ValidTrace handedOut (call (.use 0 (.grow 18)) n) ∧
        ((machine twoEager 18).runTrace handedOut (call (.use 0 (.grow 18)) n)).tasks = [task] ∧
        task.program = .ret outcome ∧ Grown twoEager ⟨0, 0, .empty 4⟩ 18 outcome := by
  have hreached : (machine twoEager 18).Reachable State.initial handedOut :=
    ⟨twoPools, by decide, rfl⟩
  have hbegun : handedOut.begun = [1, 0] := by decide
  have hrest : AtRest handedOut := ⟨by decide, by decide⟩
  have hregistered : Registered handedOut [0, 1] := by
    refine ⟨by decide, by decide, fun pool hpool => ?_⟩
    have hmem := hpool.1
    rw [hbegun] at hmem
    simp only [List.mem_cons, List.not_mem_nil, or_false] at hmem ⊢
    exact hmem.symm
  refine ⟨by decide, by decide, ?_⟩
  have hafford : 18 * (twoEager 0).elementBytes -
      Handle.bytes twoEager (⟨0, 0, .empty 4⟩ : Handle ℕ) ≤
        18 - handleBytes twoEager handedOut := by decide
  exact (pressure_met (by decide) hreached hrest hregistered).1 0 18 ⟨0, 0, .empty 4⟩ rfl hafford

end GrowthUnderPressure

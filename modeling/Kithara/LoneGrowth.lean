import Kithara.LoneThread

/-! A growth that runs alone: what the reuse scan leaves, and when an allocation is granted. Each of
the three ways a growth has to its memory is one lemma. -/
namespace LoneGrowth

open AtomicPrograms PoolOperations PoolAccounts PoolRegion RegionConservation QueuePlaces LoneThread

variable {α : Type} {pools : ℕ → PoolCore} {limit : ℕ} {standing : ℕ → Bool}
variable {r : Region α} {refs : List ℕ} {p : Slot → Prop} {held pool home newLen : ℕ}
variable {current : Buffer α}

def Takes (current : Buffer α) (newLen : ℕ) (value : Buffer α) : Prop :=
  value.contents = current.contents ∧ newLen ≤ value.capacity

theorem moveFrom_takes {value : Buffer α} (hempty : value.contents = [])
    (hroom : newLen ≤ value.capacity) (hgrows : current.capacity < newLen) :
    Takes current newLen (value.moveFrom current 0) := by
  have hholds := current.holds
  unfold Takes Buffer.moveFrom
  dsimp only
  rw [hempty, List.nil_append]
  refine ⟨rfl, ?_⟩
  rw [if_pos (by rw [List.length_nil]; omega)]
  exact hroom

/-- What a scan that reused nothing leaves: no more counted than before. -/
structure Spared (pools : ℕ → PoolCore) (p : Slot → Prop) (held : ℕ) (r r' : Region α) : Prop where
  stock : Stock pools p held r'
  current : r'.current ≤ r.current
  reclaimers : r'.reclaimers = r.reclaimers

theorem Spared.refl (h : Stock pools p held r) : Spared pools p held r r :=
  ⟨h, Nat.le_refl _, rfl⟩

def GivesBack (pools : ℕ → PoolCore) (limit : ℕ) (standing : ℕ → Bool) (p : Slot → Prop)
    (pool : ℕ) (refs : List ℕ) (giveBack : Buffer α → Program α Unit) : Prop :=
  ∀ (value : Buffer α) (r : Region α) (held : ℕ) (Q : Unit → Region α × List ℕ → Prop),
    Fits pools pool value → value.contents = [] →
    Stock pools p (held + bytes pools pool value) r →
    (∀ r' : Region α, Stock pools p held r' → r'.current ≤ r.current →
      r'.reclaimers = r.reclaimers → Q () (r', refs)) →
    Alone pools limit standing Q (giveBack value) (r, refs)

theorem put_givesBack {shard : ℕ} (hplace : p (.shard pool shard)) :
    GivesBack pools limit standing p pool refs
      fun value : Buffer α => put pools pool value shard :=
  fun _ _ _ _ hfits _ hstock hq => alone_put hfits hplace hstock hq

theorem putCold_givesBack (hcold : p (.cold pool)) (hplace : p (.shard pool home)) :
    GivesBack pools limit standing p pool refs
      fun value : Buffer α => putCold pools pool home value := by
  intro value r held Q hfits hempty hstock hq
  unfold putCold
  refine meets_bind (alone_op ?_)
  rcases push_cases pools r (.cold pool) value with hfull | hpushed
  · simp only [step, Region.perform, refsAfter, hfull]
    exact alone_put hfits hplace hstock hq
  · simp only [step, Region.perform, refsAfter, hpushed]
    refine hq _ ⟨?_, ?_, ?_⟩ (Nat.le_refl _) rfl
    · have hpush : idleBytes pools (r.idle ++ [(.cold pool, value)]) =
          idleBytes pools r.idle + bytes pools pool value := idleBytes_push _ _ _
      have hcounted := hstock.counted
      dsimp only
      omega
    · intro entry hentry
      rcases List.mem_append.mp hentry with hentry | hentry
      · exact hstock.empty entry hentry
      · obtain rfl := List.mem_singleton.mp hentry
        exact ⟨hempty, hfits⟩
    · intro entry hentry
      rcases List.mem_append.mp hentry with hentry | hentry
      · exact hstock.placed entry hentry
      · obtain rfl := List.mem_singleton.mp hentry
        exact hcold

theorem alone_reuseFrom {Q : Unit ⊕ Buffer α → Region α × List ℕ → Prop} {slot : Slot}
    {giveBack : Buffer α → Program α Unit} {start : Region α} (hslot : slot.pool = pool)
    (hback : GivesBack pools limit standing p pool refs giveBack)
    (hgrows : current.capacity < newLen) (h : Spared pools p held start r)
    (hfound : ∀ value l, Takes current newLen value → Q (.inr value) l)
    (hnone : ∀ r', Spared pools p held start r' → Q (.inl ()) (r', refs)) :
    Alone pools limit standing Q (reuseFrom pools slot giveBack pool home current newLen)
      (r, refs) := by
  subst hslot
  unfold reuseFrom
  refine meets_bind (alone_op ?_)
  simp only [step, Region.perform, refsAfter]
  refine meets_forEach (I := fun _ _ l => l.2 = refs ∧ Spared pools p held start l.1)
    ?_ ?_ ⟨rfl, h⟩
  · rintro _ _ _ ⟨r', _⟩ ⟨rfl, hspared⟩
    refine meets_bind (alone_tryGet hspared.stock ?_ ?_)
    · intro _
      exact hnone _ hspared
    · intro value rest _ hempty hfits hstock _ _
      dsimp only
      split
      · rename_i hroom
        refine meets_bind (alone_op ?_)
        simp only [step, Region.perform, refsAfter, exactly, Option.getD_some]
        refine meets_bind (alone_any (fun _ l => ?_) _ _)
        exact hfound _ l (moveFrom_takes hempty hroom hgrows)
      · refine meets_bind (hback value _ _ _ hfits hempty hstock ?_)
        intro r'' hstock' hcurrent hreclaimers
        exact ⟨rfl, hstock', Nat.le_trans hcurrent hspared.current,
          hreclaimers.trans hspared.reclaimers⟩
  · rintro _ ⟨r', _⟩ ⟨rfl, hspared⟩
    exact hnone _ hspared

theorem alone_reuseForGrowth {Q : Option (Buffer α) → Region α × List ℕ → Prop}
    (hhome : home < (pools pool).shards)
    (hplaces : ∀ index, index < (pools pool).shards → p (.shard pool index))
    (hcold : 0 < (pools pool).initialBuffers → p (.cold pool))
    (hgrows : current.capacity < newLen) (hstock : Stock pools p held r)
    (hfound : ∀ value l, Takes current newLen value → Q (some value) l)
    (hnone : ∀ r', Spared pools p held r r' → Q none (r', refs)) :
    Alone pools limit standing Q (reuseForGrowth pools pool current newLen home) (r, refs) := by
  have hshards : 0 < (pools pool).shards := by omega
  unfold reuseForGrowth
  refine meets_bind (meets_forEach (I := fun _ _ l => l.2 = refs ∧
    Spared pools p held r l.1) ?_ ?_ ⟨rfl, .refl hstock⟩)
  · rintro offset _ _ ⟨r', _⟩ ⟨rfl, hspared⟩
    refine meets_bind (alone_reuseFrom rfl
      (put_givesBack (hplaces _ (Nat.mod_lt _ hshards))) hgrows hspared ?_ ?_)
    · intro value l htakes
      exact hfound value l htakes
    · intro r'' hspared'
      exact ⟨rfl, hspared'⟩
  · rintro _ ⟨r', _⟩ ⟨rfl, hspared⟩
    dsimp only
    split
    · rename_i hbuilt
      refine meets_bind (alone_reuseFrom rfl
        (putCold_givesBack (hcold hbuilt) (hplaces _ hhome)) hgrows hspared ?_ ?_)
      · intro value l htakes
        exact hfound value l htakes
      · intro r'' hspared'
        exact hnone _ hspared'
    · exact hnone _ hspared

theorem bytesForCapacity_of_range {core : PoolCore} {capacity : ℕ}
    (h : capacity * core.elementBytes < usizeRange) :
    core.bytesForCapacity capacity = .ok (capacity * core.elementBytes) := by
  unfold PoolCore.bytesForCapacity PoolCore.storageBytes
  rw [if_pos h]

theorem alone_reserve_granted {Q : Except PoolError Unit → Region α × List ℕ → Prop} {amount : ℕ}
    (hrange : limit < usizeRange) (hroom : r.current + amount ≤ limit)
    (hq : ∀ l, Q (.ok ()) l) :
    Alone pools limit standing Q (reserve limit amount) (r, refs) := by
  unfold reserve
  split
  · refine meets_bind (alone_op ?_)
    simp only [step, Region.perform, refsAfter]
    unfold Region.tryAcquire
    rw [if_neg (by omega), if_neg (by omega)]
    exact hq _
  · exact hq _

theorem alone_reserve_refused {Q : Except PoolError Unit → Region α × List ℕ → Prop} {amount : ℕ}
    (hcounted : r.current ≤ limit) (hover : limit < r.current + amount)
    (hq : Q (.error (.overallBudgetExceeded amount r.current limit)) (r, refs)) :
    Alone pools limit standing Q (reserve limit amount) (r, refs) := by
  have hrefused : r.tryAcquire limit amount = (r, .error r.current) := by
    unfold Region.tryAcquire
    split
    · rfl
    · rfl
  unfold reserve
  rw [if_pos (by omega)]
  refine meets_bind (alone_op ?_)
  simp only [step, Region.perform, refsAfter, hrefused]
  exact hq

/-- The allocator gives what is asked for, so an allocation within the limit is granted. -/
theorem alone_allocate_granted {Q : Except PoolError (Buffer α) → Region α × List ℕ → Prop}
    {capacity oldBytes : ℕ} (hrange : limit < usizeRange)
    (hfits : capacity * (pools pool).elementBytes < usizeRange)
    (hold : oldBytes ≤ capacity * (pools pool).elementBytes)
    (hroom : r.current + (capacity * (pools pool).elementBytes - oldBytes) ≤ limit)
    (hq : ∀ l, Q (.ok (.empty capacity)) l) :
    Alone pools limit standing Q (allocate pools limit pool capacity oldBytes) (r, refs) := by
  unfold allocate
  rw [bytesForCapacity_of_range hfits]
  dsimp only
  rw [if_neg (by omega)]
  refine meets_bind (alone_reserve_granted hrange hroom fun l => ?_)
  refine meets_bind (alone_op ?_)
  have hsize : (pools pool).byteSize (Buffer.empty capacity : Buffer α) =
      .ok (capacity * (pools pool).elementBytes) := bytesForCapacity_of_range hfits
  have hfresh : exactly.fresh pools pool capacity = some (Buffer.empty capacity : Buffer α) := by
    simp only [exactly, Choice.fresh, Nat.add_zero, if_pos hfits]
  simp only [step, Region.perform, refsAfter, hfresh, hsize]
  rw [if_neg (by omega), if_neg (by omega)]
  refine meets_bind (alone_any (fun _ l => ?_) _ _)
  exact meets_bind (alone_any (fun _ l => hq l) _ _)

theorem alone_allocate_refused {Q : Except PoolError (Buffer α) → Region α × List ℕ → Prop}
    {capacity oldBytes : ℕ} (hfits : capacity * (pools pool).elementBytes < usizeRange)
    (hcounted : r.current ≤ limit)
    (hover : limit < r.current + (capacity * (pools pool).elementBytes - oldBytes))
    (hq : Q (.error (.overallBudgetExceeded (capacity * (pools pool).elementBytes - oldBytes)
      r.current limit)) (r, refs)) :
    Alone pools limit standing Q (allocate pools limit pool capacity oldBytes) (r, refs) := by
  unfold allocate
  rw [bytesForCapacity_of_range hfits]
  dsimp only
  rw [if_neg (by omega)]
  exact meets_bind (alone_reserve_refused hcounted hover hq)

theorem alone_installGrown {Q : Except PoolError Unit × Buffer α → Region α × List ℕ → Prop}
    {capacity oldBytes : ℕ} (hroom : newLen ≤ capacity) (hgrows : current.capacity < newLen)
    (hq : ∀ value l, Takes current newLen value → Q (.ok (), value) l) (l : Region α × List ℕ) :
    Alone pools limit standing Q (installGrown (.empty capacity) current oldBytes) l := by
  obtain ⟨r, refs⟩ := l
  refine meets_bind (alone_op ?_)
  simp only [step, Region.perform, refsAfter, exactly, Option.getD_some]
  refine meets_bind (alone_any (fun _ l => ?_) _ _)
  exact hq _ l (moveFrom_takes rfl hroom hgrows)

/-- The amortised capacity is cut to what the limit affords, or given up for what is needed. -/
theorem targetCapacity_cases (newLen oldCapacity oldBytes available : ℕ) {elementBytes : ℕ}
    (helement : 0 < elementBytes) (hrange : oldBytes + available < usizeRange) :
    (newLen ≤ targetCapacity newLen oldCapacity oldBytes available elementBytes ∧
      targetCapacity newLen oldCapacity oldBytes available elementBytes * elementBytes ≤
        oldBytes + available) ∨
    (targetCapacity newLen oldCapacity oldBytes available elementBytes = newLen ∧
      oldBytes + available < newLen * elementBytes) := by
  unfold targetCapacity
  rw [saturating_exact hrange]
  dsimp only
  by_cases hafford : newLen ≤ (oldBytes + available) / elementBytes
  · rw [if_pos hafford]
    refine Or.inl ⟨le_min (le_max_left _ _) hafford, ?_⟩
    calc min (max newLen (saturatingMul oldCapacity 2)) ((oldBytes + available) / elementBytes) *
          elementBytes
        ≤ (oldBytes + available) / elementBytes * elementBytes :=
          Nat.mul_le_mul_right _ (min_le_right _ _)
      _ ≤ oldBytes + available := Nat.div_mul_le_self _ _
  · rw [if_neg hafford]
    exact Or.inr ⟨rfl, (Nat.div_lt_iff_lt_mul helement).mp (Nat.lt_of_not_le hafford)⟩

/-- The queues a lone operation finds values in: all belong to live pools that are registered. -/
structure Reclaimable (pools : ℕ → PoolCore) (standing : ℕ → Bool) (refs reclaimers : List ℕ)
    (p : Slot → Prop) : Prop where
  queues : ∀ slot, p slot → HasQueue pools slot
  alive : ∀ slot, p slot → standing slot.pool = true ∨ slot.pool ∈ refs
  registered : ∀ slot, p slot → slot.pool ∈ reclaimers

theorem alone_grow {Q : Except PoolError Unit × Buffer α → Region α × List ℕ → Prop}
    {reclaimers : List ℕ} (hrange : limit < usizeRange) (hfits : Fits pools pool current)
    (hhome : home < (pools pool).shards)
    (hown : ∀ slot : Slot, slot.pool = pool → HasQueue pools slot → p slot)
    (hreclaimable : Reclaimable pools standing refs reclaimers p)
    (hinstalled : r.reclaimers = some reclaimers) (hcount : reclaimers.length ≤ 2 ^ 63)
    (hstock : Stock pools p held r) (hlimited : r.current ≤ limit)
    (hcurrent : bytes pools pool current ≤ held)
    (hroom : held + newLen * (pools pool).elementBytes ≤ limit + bytes pools pool current)
    (hq : ∀ value l, value.contents = current.contents →
      (pools pool).elementBytes = 0 ∨ newLen ≤ value.capacity → Q (.ok (), value) l) :
    Alone pools limit standing Q (grow pools limit pool current newLen home) (r, refs) := by
  have hcounted := hstock.counted
  unfold grow
  split
  · exact hq _ _ rfl (Or.inr (by assumption))
  rename_i hlen
  have hgrows : current.capacity < newLen := Nat.lt_of_not_le hlen
  have htakes : ∀ value l, Takes current newLen value → Q (.ok (), value) l :=
    fun value l h => hq value l h.1 (Or.inr h.2)
  have hold : (pools pool).bytesForCapacity current.capacity =
      .ok (bytes pools pool current) := bytesForCapacity_of_range hfits
  have hnew : newLen * (pools pool).elementBytes < usizeRange := by omega
  have hone : (pools pool).bytesForCapacity 1 = .ok (1 * (pools pool).elementBytes) := by
    refine bytesForCapacity_of_range (Nat.lt_of_le_of_lt ?_ hnew)
    exact Nat.mul_le_mul_right _ (by omega)
  simp only [hold, hone, Nat.one_mul]
  split
  · exact hq _ _ rfl (Or.inl (by assumption))
  rename_i helement
  refine meets_bind (alone_op ?_)
  simp only [step, Region.perform, refsAfter]
  have hgrowth : bytes pools pool current ≤ newLen * (pools pool).elementBytes :=
    Nat.mul_le_mul_right _ (by omega)
  rcases targetCapacity_cases newLen current.capacity (bytes pools pool current)
    (limit - r.current) (Nat.pos_of_ne_zero helement) (by omega) with
      ⟨hneeded, hafford⟩ | ⟨hexact, hover⟩
  · -- the first allocation takes no more than the limit leaves
    generalize targetCapacity newLen current.capacity (bytes pools pool current)
      (limit - r.current) (pools pool).elementBytes = target at hneeded hafford
    have hlarger : newLen * (pools pool).elementBytes ≤ target * (pools pool).elementBytes :=
      Nat.mul_le_mul_right _ hneeded
    refine meets_bind (alone_allocate_granted hrange (by omega) (by omega) (by omega) ?_)
    exact alone_installGrown hneeded hgrows htakes
  · rw [hexact]
    refine meets_bind (alone_allocate_refused hnew hlimited (by omega) ?_)
    simp only [growUnderPressure, reuseAfter, PoolError.mayReuse, if_true]
    refine meets_bind (alone_reuseForGrowth hhome ?_ ?_ hgrows hstock ?_ ?_)
    · exact fun index hindex => hown _ rfl hindex
    · exact fun hbuilt => hown _ rfl hbuilt
    · exact htakes
    · intro r' hspared
      have hless := hspared.current
      refine meets_bind (meets_bind (alone_reclaim (by omega) hspared.stock hreclaimable.queues
        hreclaimable.alive (hspared.reclaimers.trans hinstalled) hcount hreclaimable.registered ?_))
      intro n r'' hdrained hresult
      have hsum := hdrained.sum
      have hleft := hdrained.stock.counted
      refine meets_bind (alone_allocate_granted hrange hnew hgrowth ?_ ?_)
      · rcases hresult with henough | hnone
        · omega
        · have hzero : idleBytes pools r''.idle = 0 := by rw [hnone]; rfl
          omega
      · exact alone_installGrown (Nat.le_refl _) hgrows htakes

end LoneGrowth

import Kithara.QueuePlaces

/-! An operation that runs alone, as in a single thread: the region answers each of its steps at
once, and the allocator gives the capacity that was asked for. What is idle and what is counted
then follow through the loops of a reclaim and of a growth. -/
namespace LoneThread

open AtomicPrograms PoolOperations PoolAccounts PoolRegion RegionConservation QueuePlaces

variable {α β γ : Type}

def exactly : Choice := ⟨some 0⟩

def refsAfter (refs : List ℕ) : (op : Op α) → op.Answer → List ℕ
  | .upgrade pool, true => pool :: refs
  | .downgrade pool, _ => refs.erase pool
  | _, _ => refs

variable (pools : ℕ → PoolCore) (limit : ℕ) (standing : ℕ → Bool)

/-- A step of the only operation there is, with what others and it itself keep alive. -/
def step (l : Region α × List ℕ) (op : Op α) : Region α × op.Answer :=
  l.1.perform pools limit (fun pool => standing pool || decide (pool ∈ l.2)) exactly op

def lone : Rules (Op α) Op.Answer (Region α × List ℕ) where
  pre := fun _ _ => True
  answers := fun l op answer => answer = (step pools limit standing l op).2
  after := fun l op answer => ((step pools limit standing l op).1, refsAfter l.2 op answer)

abbrev Alone (Q : β → Region α × List ℕ → Prop) (prog : Program α β) (l : Region α × List ℕ) :
    Prop :=
  (lone pools limit standing).Meets Q prog l

section

variable {pools limit standing} {r : Region α} {refs : List ℕ}

theorem alone_op {op : Op α} {Q : op.Answer → Region α × List ℕ → Prop}
    (h : Q (step pools limit standing (r, refs) op).2
      ((step pools limit standing (r, refs) op).1,
        refsAfter refs op (step pools limit standing (r, refs) op).2)) :
    Alone pools limit standing Q (Prog.op op) (r, refs) := by
  refine ⟨trivial, ?_⟩
  rintro _ rfl
  exact h

theorem alone_any {Q : β → Region α × List ℕ → Prop} (h : ∀ b l, Q b l) (prog : Program α β)
    (l : Region α × List ℕ) : Alone pools limit standing Q prog l := by
  induction prog generalizing l with
  | ret b => exact h b l
  | call op k ih => exact ⟨trivial, fun answer _ => ih answer _⟩

end

section Queues

theorem takeFirst_none {slot : Slot} {idle : List (Slot × Buffer α)}
    (h : takeFirst slot idle = none) : ∀ entry ∈ idle, entry.1 ≠ slot := by
  induction idle with
  | nil => simp
  | cons entry idle ih =>
    unfold takeFirst at h
    split at h
    · cases h
    · rename_i hslot
      exact List.forall_mem_cons.mpr ⟨hslot, ih (Option.map_eq_none_iff.mp h)⟩

theorem takeFirst_queued {slot : Slot} {idle rest : List (Slot × Buffer α)} {value : Buffer α}
    (h : takeFirst slot idle = some (value, rest)) : queued slot rest + 1 = queued slot idle := by
  induction idle generalizing rest with
  | nil => cases h
  | cons entry idle ih =>
    unfold takeFirst at h
    by_cases hslot : entry.1 = slot
    · rw [if_pos hslot] at h
      obtain ⟨rfl, rfl⟩ := Prod.mk.inj (Option.some.inj h)
      simp [queued, hslot]
    · rw [if_neg hslot] at h
      obtain ⟨⟨found, others⟩, hfound, heq⟩ := Option.map_eq_some_iff.mp h
      obtain ⟨rfl, rfl⟩ := Prod.mk.inj heq
      have hrest := ih hfound
      simpa [queued, hslot] using hrest

theorem queued_zero {slot : Slot} {idle : List (Slot × Buffer α)} (h : queued slot idle = 0) :
    ∀ entry ∈ idle, entry.1 ≠ slot := by
  intro entry hentry heq
  unfold queued at h
  have hnil := List.length_eq_zero_iff.mp h
  have hmem : entry ∈ idle.filter fun entry => entry.1 = slot :=
    List.mem_filter.mpr ⟨hentry, decide_eq_true heq⟩
  rw [hnil] at hmem
  exact List.not_mem_nil hmem

end Queues

/-- The counter stands for the idle values and `held` bytes besides, and every idle value lies in a
queue of the kind `p`. -/
structure Stock (p : Slot → Prop) (held : ℕ) (r : Region α) : Prop where
  counted : r.current = idleBytes pools r.idle + held
  empty : IdleEmpty pools r.idle
  placed : ∀ entry ∈ r.idle, p entry.1

section Stock

variable {pools limit standing} {r : Region α} {refs : List ℕ} {p : Slot → Prop} {held : ℕ}
variable {slot : Slot}

theorem alone_tryGet {Q : Option (Buffer α) → Region α × List ℕ → Prop}
    (hstock : Stock pools p held r)
    (hnone : (∀ entry ∈ r.idle, entry.1 ≠ slot) → Q none (r, refs))
    (hsome : ∀ value rest, p slot → value.contents = [] → Fits pools slot.pool value →
      Stock pools p (held + bytes pools slot.pool value) { r with idle := rest } →
      (∀ entry ∈ rest, entry ∈ r.idle) → queued slot rest + 1 = queued slot r.idle →
      Q (some value) ({ r with idle := rest }, refs)) :
    Alone pools limit standing Q (tryGet slot) (r, refs) := by
  refine alone_op ?_
  simp only [step, Region.perform, refsAfter, Region.tryGet]
  cases hfound : takeFirst slot r.idle with
  | none => exact hnone (takeFirst_none hfound)
  | some found =>
    obtain ⟨value, rest⟩ := found
    obtain ⟨hmem, hsub, hbytes⟩ := takeFirst_found pools hfound
    obtain ⟨hempty, hfits⟩ := hstock.empty _ hmem
    refine hsome value rest (hstock.placed _ hmem) hempty hfits ⟨?_, ?_, ?_⟩ hsub
      (takeFirst_queued hfound)
    · have hcounted := hstock.counted
      dsimp only
      omega
    · exact fun entry hentry => hstock.empty entry (hsub entry hentry)
    · exact fun entry hentry => hstock.placed entry (hsub entry hentry)

theorem alone_releaseValue {Q : ℕ → Region α × List ℕ → Prop} {pool : ℕ} {value : Buffer α}
    (hfits : Fits pools pool value) (hstock : Stock pools p (held + bytes pools pool value) r)
    (hq : ∀ r' : Region α, Stock pools p held r' → r'.idle = r.idle →
      r'.reclaimers = r.reclaimers → bytes pools pool value + r'.current = r.current →
      Q (bytes pools pool value) (r', refs)) :
    Alone pools limit standing Q (releaseValue pools pool value) (r, refs) := by
  have hcounted := hstock.counted
  unfold releaseValue
  rw [byteSizeOrMax_of_fits hfits]
  refine meets_bind ?_
  unfold release
  split
  · refine alone_op ?_
    have hle : (Charge.buffer (bytes pools pool value)).amount ≤ r.current := by
      simp only [Charge.amount]
      omega
    simp only [step, Region.perform, refsAfter, release_backed hle]
    refine hq _ ⟨?_, hstock.empty, hstock.placed⟩ rfl rfl ?_
    · simp only [Charge.amount]
      omega
    · simp only [Charge.amount] at hle ⊢
      omega
  · rename_i hzero
    have hbytes : bytes pools pool value = 0 := by
      simp only [Charge.amount] at hzero
      omega
    refine hq r ⟨?_, hstock.empty, hstock.placed⟩ rfl rfl ?_
    · omega
    · omega

theorem alone_put {Q : Unit → Region α × List ℕ → Prop} {pool shard : ℕ} {value : Buffer α}
    (hfits : Fits pools pool value) (hplace : p (.shard pool shard))
    (hstock : Stock pools p (held + bytes pools pool value) r)
    (hq : ∀ r' : Region α, Stock pools p held r' → r'.current ≤ r.current →
      r'.reclaimers = r.reclaimers → Q () (r', refs)) :
    Alone pools limit standing Q (put pools pool value shard) (r, refs) := by
  have hcounted := hstock.counted
  have hdrop : Alone pools limit standing Q
      (releaseValue pools pool value.clear >>= fun _ => pure ()) (r, refs) := by
    refine meets_bind (alone_releaseValue hfits hstock ?_)
    intro r' hstock' _ hreclaimers hcurrent
    exact hq r' hstock' (by omega) hreclaimers
  unfold put
  split
  · refine meets_bind (alone_op ?_)
    rcases push_cases pools r (.shard pool shard) value.clear with hfull | hpushed
    · simp only [step, Region.perform, refsAfter, hfull]
      exact hdrop
    · simp only [step, Region.perform, refsAfter, hpushed]
      refine hq _ ⟨?_, ?_, ?_⟩ (Nat.le_refl _) rfl
      · have hpush : idleBytes pools (r.idle ++ [(.shard pool shard, value.clear)]) =
            idleBytes pools r.idle + bytes pools pool value := idleBytes_push _ _ _
        dsimp only
        omega
      · intro entry hentry
        rcases List.mem_append.mp hentry with hentry | hentry
        · exact hstock.empty entry hentry
        · obtain rfl := List.mem_singleton.mp hentry
          exact ⟨rfl, hfits⟩
      · intro entry hentry
        rcases List.mem_append.mp hentry with hentry | hentry
        · exact hstock.placed entry hentry
        · obtain rfl := List.mem_singleton.mp hentry
          exact hplace
  · exact hdrop

end Stock

/-- A reclaim under way: it took idle values of `released` bytes out, and added none. -/
structure Drained (p : Slot → Prop) (held : ℕ) (start : Region α) (released : ℕ) (r : Region α) :
    Prop where
  stock : Stock pools p held r
  sum : released + r.current = start.current
  idle : ∀ entry ∈ r.idle, entry ∈ start.idle
  reclaimers : r.reclaimers = start.reclaimers

section Reclaim

variable {pools limit standing} {start r : Region α} {refs : List ℕ} {p : Slot → Prop}
variable {held released : ℕ} {pool : ℕ} {target : ℕ}

theorem Drained.refl (h : Stock pools p held r) : Drained pools p held r 0 r :=
  ⟨h, Nat.zero_add _, fun _ hentry => hentry, rfl⟩

theorem Drained.trans {more : ℕ} {r' : Region α} (h : Drained pools p held start released r)
    (h' : Drained pools p held r more r') : Drained pools p held start (released + more) r' := by
  refine ⟨h'.stock, ?_, fun entry hentry => h.idle entry (h'.idle entry hentry),
    h'.reclaimers.trans h.reclaimers⟩
  have hsum := h.sum
  have hsum' := h'.sum
  omega

theorem saturating_exact {a b : ℕ} (h : a + b < usizeRange) : saturatingAdd a b = a + b :=
  min_eq_left (by unfold usizeMax; omega)

/-- The scan of one queue empties it, unless enough is released before. -/
theorem alone_releaseFrom {Q : ℕ ⊕ ℕ → Region α × List ℕ → Prop} {slot : Slot}
    (hslot : slot.pool = pool) (hrange : start.current < usizeRange)
    (h : Drained pools p held start released r)
    (hdone : ∀ released' r', Drained pools p held start released' r' → target ≤ released' →
      Q (.inr released') (r', refs))
    (hrest : ∀ released' r', Drained pools p held start released' r' →
      (∀ entry ∈ r'.idle, entry ∈ r.idle ∧ entry.1 ≠ slot) → Q (.inl released') (r', refs)) :
    Alone pools limit standing Q (releaseFrom pools slot pool target released) (r, refs) := by
  subst hslot
  unfold releaseFrom
  refine meets_bind (alone_op ?_)
  simp only [step, Region.perform, refsAfter]
  refine meets_forEach (I := fun xs released' l => l.2 = refs ∧
    Drained pools p held start released' l.1 ∧ (∀ entry ∈ l.1.idle, entry ∈ r.idle) ∧
      queued slot l.1.idle = xs.length) ?_ ?_ ?_
  · rintro x xs released' ⟨r', _⟩ ⟨rfl, hdrained, hsub, hleft⟩
    refine meets_bind (alone_tryGet hdrained.stock ?_ ?_)
    · intro hnone
      have hzero : queued slot r'.idle = 0 := by
        unfold queued
        rw [List.length_eq_zero_iff, List.filter_eq_nil_iff]
        intro entry hentry
        simpa using hnone entry hentry
      rw [List.length_cons] at hleft
      dsimp only at hleft
      omega
    · intro value rest _ _ hfits hstock hrest' hcount
      refine meets_bind (alone_releaseValue hfits hstock ?_)
      intro r'' hstock' hidle hreclaimers hcurrent
      dsimp only at hcurrent hidle hreclaimers
      have hsum := hdrained.sum
      dsimp only at hsum
      have hdrained' : Drained pools p held start
          (released' + bytes pools slot.pool value) r'' := by
        refine ⟨hstock', ?_, ?_, hreclaimers.trans hdrained.reclaimers⟩
        · omega
        · intro entry hentry
          rw [hidle] at hentry
          exact hdrained.idle entry (hrest' entry hentry)
      rw [saturating_exact (by omega)]
      dsimp only
      split
      · exact hdone _ _ hdrained' (by assumption)
      · refine ⟨rfl, hdrained', ?_, ?_⟩
        · intro entry hentry
          dsimp only at hentry
          rw [hidle] at hentry
          exact hsub entry (hrest' entry hentry)
        · rw [List.length_cons] at hleft
          dsimp only at hleft ⊢
          rw [hidle]
          omega
  · rintro released' ⟨r', _⟩ ⟨rfl, hdrained, hsub, hleft⟩
    refine hrest _ _ hdrained fun entry hentry => ⟨hsub entry hentry, ?_⟩
    exact queued_zero hleft entry hentry
  · exact ⟨rfl, h, fun _ hentry => hentry, List.length_range.symm⟩

/-- The scan of a pool takes all its idle values, unless enough is released before. -/
theorem alone_releaseIdle {Q : ℕ → Region α × List ℕ → Prop}
    (hrange : r.current < usizeRange) (hstock : Stock pools p held r)
    (hqueues : ∀ slot, p slot → HasQueue pools slot)
    (hq : ∀ n r', Drained pools p held r n r' →
      (target ≤ n ∨ ∀ entry ∈ r'.idle, entry.1.pool ≠ pool) → Q n (r', refs)) :
    Alone pools limit standing Q (releaseIdle pools pool target) (r, refs) := by
  unfold releaseIdle
  split
  · exact hq 0 r (.refl hstock) (Or.inl (by omega))
  refine meets_bind (meets_forEach (I := fun xs released' l => l.2 = refs ∧
    Drained pools p held r released' l.1 ∧ ∀ index ∈ List.range (pools pool).shards,
      index ∈ xs ∨ ∀ entry ∈ l.1.idle, entry.1 ≠ .shard pool index) ?_ ?_ ?_)
  · rintro x xs released' ⟨r', _⟩ ⟨rfl, hdrained, hscanned⟩
    refine meets_bind (alone_releaseFrom rfl hrange hdrained ?_ ?_)
    · intro released'' r'' hdrained' hdone
      exact hq _ _ hdrained' (Or.inl hdone)
    · intro released'' r'' hdrained' hcleared
      refine ⟨rfl, hdrained', fun index hindex => ?_⟩
      rcases hscanned index hindex with hmem | hbefore
      · rcases List.mem_cons.mp hmem with rfl | hmem
        · exact Or.inr fun entry hentry => (hcleared entry hentry).2
        · exact Or.inl hmem
      · exact Or.inr fun entry hentry => hbefore entry (hcleared entry hentry).1
  · rintro released' ⟨r', _⟩ ⟨rfl, hdrained, hscanned⟩
    have hshards : ∀ index, index < (pools pool).shards →
        ∀ entry ∈ r'.idle, entry.1 ≠ .shard pool index := by
      intro index hindex
      rcases hscanned index (List.mem_range.mpr hindex) with hmem | hclear
      · exact absurd hmem List.not_mem_nil
      · exact hclear
    have hcold : ∀ entry ∈ r'.idle, entry.1.pool = pool → entry.1 = .cold pool := by
      rintro ⟨slot, value⟩ hentry hpool
      have hqueue := hqueues _ (hdrained.stock.placed _ hentry)
      cases slot with
      | shard other index =>
        obtain rfl : other = pool := hpool
        exact absurd rfl (hshards index hqueue _ hentry)
      | cold other =>
        obtain rfl : other = pool := hpool
        rfl
    dsimp only
    split
    · refine meets_bind (alone_releaseFrom rfl hrange hdrained ?_ ?_)
      · intro released'' r'' hdrained' hdone
        exact hq _ _ hdrained' (Or.inl hdone)
      · intro released'' r'' hdrained' hcleared
        refine hq _ _ hdrained' (Or.inr fun entry hentry hpool => ?_)
        obtain ⟨hold, hnot⟩ := hcleared entry hentry
        exact hnot (hcold entry hold hpool)
    · rename_i hnone
      refine hq _ _ hdrained (Or.inr fun entry hentry hpool => ?_)
      have hqueue := hqueues _ (hdrained.stock.placed _ hentry)
      rw [hcold entry hentry hpool] at hqueue
      exact hnone hqueue
  · exact ⟨rfl, .refl hstock, fun index hindex => Or.inl hindex⟩

theorem rotation_visits {start n j : ℕ} (hstart : start < n) (hj : j < n) (hn : n ≤ 2 ^ 63) :
    ∃ offset < n, (start + offset) % usizeRange % n = j := by
  have hsmall : ∀ offset < n, (start + offset) % usizeRange = start + offset := by
    intro offset hoffset
    exact Nat.mod_eq_of_lt (by unfold usizeRange; omega)
  by_cases hle : start ≤ j
  · refine ⟨j - start, by omega, ?_⟩
    rw [hsmall _ (by omega), Nat.mod_eq_of_lt (by omega)]
    omega
  · refine ⟨j + n - start, by omega, ?_⟩
    rw [hsmall _ (by omega), show start + (j + n - start) = j + n by omega, Nat.add_mod_right,
      Nat.mod_eq_of_lt hj]

theorem alone_reclaim {Q : ℕ → Region α × List ℕ → Prop} {reclaimers : List ℕ}
    (hrange : r.current < usizeRange) (hstock : Stock pools p held r)
    (hqueues : ∀ slot, p slot → HasQueue pools slot)
    (halive : ∀ slot, p slot → standing slot.pool = true ∨ slot.pool ∈ refs)
    (hinstalled : r.reclaimers = some reclaimers) (hcount : reclaimers.length ≤ 2 ^ 63)
    (hregistered : ∀ slot, p slot → slot.pool ∈ reclaimers)
    (hq : ∀ n r', Drained pools p held r n r' → (target ≤ n ∨ r'.idle = []) → Q n (r', refs)) :
    Alone pools limit standing Q (reclaim pools target) (r, refs) := by
  unfold reclaim
  split
  · exact hq 0 r (.refl hstock) (Or.inl (by omega))
  refine meets_bind (alone_op ?_)
  simp only [step, Region.perform, refsAfter, hinstalled]
  split
  · rename_i hempty
    have hnone : r.idle = [] := by
      refine List.eq_nil_iff_forall_not_mem.mpr fun entry hentry => ?_
      have hmem := hregistered _ (hstock.placed entry hentry)
      rw [List.isEmpty_iff.mp hempty] at hmem
      exact List.not_mem_nil hmem
    exact hq 0 r (.refl hstock) (Or.inr hnone)
  rename_i hsome
  have hlength : 0 < reclaimers.length := by
    rw [List.length_pos_iff]
    simpa using hsome
  refine meets_bind (alone_op ?_)
  simp only [step, Region.perform, refsAfter]
  have hfirst : r.next % reclaimers.length < reclaimers.length := Nat.mod_lt _ hlength
  generalize r.next % reclaimers.length = first at hfirst
  refine meets_bind (meets_forEach (I := fun xs released' l => l.2 = refs ∧
    Drained pools p held r released' l.1 ∧ ∀ offset ∈ List.range reclaimers.length,
      offset ∈ xs ∨ ∀ entry ∈ l.1.idle,
        entry.1.pool ≠ reclaimers.getD ((first + offset) % usizeRange % reclaimers.length) 0)
    ?_ ?_ ?_)
  · rintro offset xs released' ⟨r', refs'⟩ ⟨rfl, hdrained, hscanned⟩
    refine meets_bind (alone_op ?_)
    generalize hpool :
      reclaimers.getD ((first + offset) % usizeRange % reclaimers.length) 0 = pool
    have hnext : ∀ released'' r'', Drained pools p held r released'' r'' →
        (∀ entry ∈ r''.idle, entry ∈ r'.idle ∧ entry.1.pool ≠ pool) →
        ∀ offset' ∈ List.range reclaimers.length, offset' ∈ xs ∨ ∀ entry ∈ r''.idle,
          entry.1.pool ≠
            reclaimers.getD ((first + offset') % usizeRange % reclaimers.length) 0 := by
      intro released'' r'' hdrained' hcleared offset' hoffset'
      rcases hscanned offset' hoffset' with hmem | hbefore
      · rcases List.mem_cons.mp hmem with rfl | hmem
        · refine Or.inr fun entry hentry => ?_
          rw [hpool]
          exact (hcleared entry hentry).2
        · exact Or.inl hmem
      · exact Or.inr fun entry hentry => hbefore entry (hcleared entry hentry).1
    simp only [step, Region.perform]
    by_cases hup : (standing pool || decide (pool ∈ refs')) = true
    · simp only [hup, if_true, refsAfter]
      have hsum := hdrained.sum
      dsimp only at hsum
      refine meets_bind (alone_releaseIdle (by omega) hdrained.stock hqueues ?_)
      intro freed r'' hfreed hresult
      refine meets_bind (alone_op ?_)
      simp only [step, Region.perform, refsAfter, List.erase_cons_head]
      have hdrained' := hdrained.trans hfreed
      have hsum' := hdrained'.sum
      rw [saturating_exact (by omega)]
      split
      · exact hq _ _ hdrained' (Or.inl (by assumption))
      · rename_i hless
        refine ⟨rfl, hdrained', hnext _ _ hdrained' fun entry hentry => ?_⟩
        rcases hresult with henough | hclear
        · omega
        · exact ⟨hfreed.idle entry hentry, hclear entry hentry⟩
    · rw [Bool.not_eq_true] at hup
      simp only [hup, Bool.false_eq_true, if_false, refsAfter]
      refine ⟨rfl, hdrained, hnext _ _ hdrained fun entry hentry => ⟨hentry, fun heq => ?_⟩⟩
      rw [Bool.or_eq_false_iff, decide_eq_false_iff_not] at hup
      rcases halive _ (hdrained.stock.placed entry hentry) with hstands | hmem
      · rw [heq, hup.1] at hstands
        exact Bool.false_ne_true hstands
      · rw [heq] at hmem
        exact hup.2 hmem
  · rintro released' ⟨r', _⟩ ⟨rfl, hdrained, hscanned⟩
    refine hq _ _ hdrained (Or.inr (List.eq_nil_iff_forall_not_mem.mpr fun entry hentry => ?_))
    obtain ⟨j, hj, hget⟩ :=
      List.mem_iff_getElem.mp (hregistered _ (hdrained.stock.placed entry hentry))
    obtain ⟨offset, hoffset, hvisit⟩ := rotation_visits hfirst hj hcount
    rcases hscanned offset (List.mem_range.mpr hoffset) with hmem | hclear
    · exact absurd hmem List.not_mem_nil
    · refine hclear entry hentry ?_
      rw [hvisit, List.getD_eq_getElem?_getD, List.getElem?_eq_getElem hj, hget, Option.getD_some]
  · exact ⟨rfl, ⟨⟨hstock.counted, hstock.empty, hstock.placed⟩, Nat.zero_add _,
      fun _ hentry => hentry, rfl⟩, fun offset hoffset => Or.inl hoffset⟩

end Reclaim

end LoneThread

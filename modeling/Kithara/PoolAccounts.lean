import Mathlib.Algebra.GroupWithZero.Nat
import Kithara.PoolOperations

/-! What a pool operation does to the account of the task that runs it, whatever other tasks do in
between. A failed allocation leaves the account as it was; a value put away is either queued or
released; a reclaim releases exactly what it took. -/
namespace PoolAccounts

open AtomicPrograms PoolOperations

variable {α : Type}

/-- The charges one task answers for: the buffers in its hands, its open reservations, and what it
has not yet given back for a buffer it is replacing; and the pools it keeps alive. -/
@[ext]
structure Ledger where
  held : ℕ
  reserved : ℕ
  replaced : ℕ
  refs : List ℕ
  deriving DecidableEq

def Ledger.takes (l : Ledger) (size : ℕ) : Ledger := { l with held := l.held + size }
def Ledger.gives (l : Ledger) (size : ℕ) : Ledger := { l with held := l.held - size }

@[simp] theorem takes_gives (l : Ledger) (size : ℕ) : (l.takes size).gives size = l := by
  unfold Ledger.takes Ledger.gives
  rw [Nat.add_sub_cancel]

variable (pools : ℕ → PoolCore)

def bytes (pool : ℕ) (value : Buffer α) : ℕ :=
  value.capacity * (pools pool).elementBytes

def Fits (pool : ℕ) (value : Buffer α) : Prop :=
  bytes pools pool value < usizeRange

def Ledger.Admits (l : Ledger) : Op α → Prop
  | .tryGet slot => slot.pool ∈ l.refs
  | .push slot value => slot.pool ∈ l.refs ∧ value.contents = [] ∧ Fits pools slot.pool value ∧
      bytes pools slot.pool value + l.replaced ≤ l.held
  | .release (.reservation amount) => amount ≤ l.reserved
  | .release (.buffer size) => size + l.replaced ≤ l.held
  | .release (.shrunk before after) => after ≤ before ∧ before + l.replaced ≤ l.held
  | .moveFrom value other =>
      value.contents.length + other.contents.length ≤ value.capacity
  | .commit size oldBytes =>
      oldBytes ≤ size ∧ size - oldBytes ≤ l.reserved ∧ l.replaced + oldBytes ≤ l.held
  | .replace oldBytes => oldBytes ≤ l.replaced
  | .downgrade pool => pool ∈ l.refs
  | _ => True

/-- What an answer can be: an idle value is empty, a rejected one is the one offered, the allocator
gives at least what was asked. -/
def Answers : (op : Op α) → op.Answer → Prop
  | .tryGet slot, ans => ∀ value, ans = some value →
      value.contents = [] ∧ Fits pools slot.pool value
  | .push _ value, ans => ∀ rejected, ans = .error rejected → rejected = value
  | .tryWithCapacity pool capacity, ans => ∀ value, ans = some value →
      value.contents = [] ∧ capacity ≤ value.capacity ∧ Fits pools pool value
  | .moveFrom value other, ans =>
      value.contents.length + other.contents.length ≤ value.capacity →
        ans.capacity = value.capacity ∧ ans.contents = value.contents ++ other.contents
  | .shrinkTo value _, ans => ans.contents = value.contents ∧ ans.capacity ≤ value.capacity
  | _, _ => True

def Ledger.after (l : Ledger) : (op : Op α) → op.Answer → Ledger
  | .tryGet slot, some value => l.takes (bytes pools slot.pool value)
  | .push slot value, .ok _ => l.gives (bytes pools slot.pool value)
  | .tryAcquire amount, .ok _ => { l with reserved := l.reserved + amount }
  | .release (.reservation amount), _ => { l with reserved := l.reserved - amount }
  | .release (.buffer size), _ => l.gives size
  | .release (.shrunk before after), _ => l.gives (before - after)
  | .commit size oldBytes, _ =>
      { l with
        held := l.held + size
        reserved := l.reserved - (size - oldBytes)
        replaced := l.replaced + oldBytes }
  | .replace oldBytes, _ =>
      { l with held := l.held - oldBytes, replaced := l.replaced - oldBytes }
  | .upgrade pool, true => { l with refs := pool :: l.refs }
  | .downgrade pool, _ => { l with refs := l.refs.erase pool }
  | _, _ => l

def rules : Rules (Op α) Op.Answer Ledger where
  pre := Ledger.Admits pools
  answers := fun _ => Answers pools
  after := Ledger.after pools

abbrev Runs {β : Type} (Q : β → Ledger → Prop) (prog : Program α β) (l : Ledger) : Prop :=
  (rules pools).Meets Q prog l

section Sizes

variable {pools}

theorem bytesForCapacity_ok {core : PoolCore} {capacity size : ℕ}
    (h : core.bytesForCapacity capacity = .ok size) : size = capacity * core.elementBytes := by
  unfold PoolCore.bytesForCapacity PoolCore.storageBytes at h
  by_cases hfits : capacity * core.elementBytes < usizeRange
  · rw [if_pos hfits] at h
    exact (Except.ok.inj h).symm
  · rw [if_neg hfits] at h
    cases h

theorem byteSize_of_fits {pool : ℕ} {value : Buffer α} (h : Fits pools pool value) :
    (pools pool).byteSize value = .ok (bytes pools pool value) := by
  unfold PoolCore.byteSize PoolCore.bytesForCapacity PoolCore.storageBytes
  have hfits : value.capacity * (pools pool).elementBytes < usizeRange := h
  rw [if_pos hfits]
  rfl

theorem byteSizeOrMax_of_fits {pool : ℕ} {value : Buffer α} (h : Fits pools pool value) :
    (pools pool).byteSizeOrMax value = bytes pools pool value := by
  unfold PoolCore.byteSizeOrMax
  rw [byteSize_of_fits h]

@[simp] theorem bytes_clear (pool : ℕ) (value : Buffer α) :
    bytes pools pool value.clear = bytes pools pool value := rfl

theorem fits_clear {pool : ℕ} {value : Buffer α} (h : Fits pools pool value) :
    Fits pools pool value.clear := h

@[simp] theorem bytes_default (pool : ℕ) :
    bytes pools pool ((pools pool).default : Buffer α) = 0 := by
  unfold bytes PoolCore.default Buffer.empty
  by_cases h : (pools pool).elementBytes = 0
  · rw [h, Nat.mul_zero]
  · rw [if_neg h, Nat.zero_mul]

theorem fits_default (pool : ℕ) : Fits pools pool ((pools pool).default : Buffer α) := by
  unfold Fits
  rw [bytes_default]
  exact Nat.two_pow_pos 64

theorem bytes_mono {pool : ℕ} {v w : Buffer α} (h : v.capacity ≤ w.capacity) :
    bytes pools pool v ≤ bytes pools pool w :=
  Nat.mul_le_mul_right _ h

theorem targetCapacity_ge (newLen oldCapacity oldBytes available elementBytes : ℕ) :
    newLen ≤ targetCapacity newLen oldCapacity oldBytes available elementBytes := by
  unfold targetCapacity
  dsimp only
  split
  · omega
  · exact Nat.le_refl _

end Sizes

section Charges

variable {pools} {l : Ledger}

theorem release_reservation {Q : Unit → Ledger → Prop} {amount : ℕ} (h : amount ≤ l.reserved)
    (hq : Q () { l with reserved := l.reserved - amount }) :
    Runs pools Q (release (.reservation amount) : Program α Unit) l := by
  unfold release
  by_cases hpos : 0 < amount
  · rw [if_pos (show 0 < (Charge.reservation amount).amount from hpos)]
    exact ⟨h, fun _ _ => hq⟩
  · rw [if_neg (show ¬ 0 < (Charge.reservation amount).amount from hpos)]
    obtain rfl : amount = 0 := by omega
    exact hq

theorem release_buffer {Q : Unit → Ledger → Prop} {size : ℕ} (h : size + l.replaced ≤ l.held)
    (hq : Q () (l.gives size)) :
    Runs pools Q (release (.buffer size) : Program α Unit) l := by
  unfold release
  by_cases hpos : 0 < size
  · rw [if_pos (show 0 < (Charge.buffer size).amount from hpos)]
    exact ⟨h, fun _ _ => hq⟩
  · rw [if_neg (show ¬ 0 < (Charge.buffer size).amount from hpos)]
    obtain rfl : size = 0 := by omega
    exact hq

theorem release_shrunk {Q : Unit → Ledger → Prop} {before after : ℕ} (hle : after ≤ before)
    (h : before + l.replaced ≤ l.held)
    (hq : Q () (l.gives (before - after))) :
    Runs pools Q (release (.shrunk before after) : Program α Unit) l := by
  unfold release
  by_cases hpos : 0 < before - after
  · rw [if_pos (show 0 < (Charge.shrunk before after).amount from hpos)]
    exact ⟨⟨hle, h⟩, fun _ _ => hq⟩
  · rw [if_neg (show ¬ 0 < (Charge.shrunk before after).amount from hpos)]
    have hzero : before - after = 0 := by omega
    rw [hzero] at hq
    exact hq

/-- A reservation that is dropped leaves what was there before it. -/
theorem release_reserved {Q : Unit → Ledger → Prop} {amount : ℕ} (hq : Q () l) :
    Runs pools Q (release (.reservation amount) : Program α Unit)
      { l with reserved := l.reserved + amount } := by
  refine release_reservation (Nat.le_add_left _ _) ?_
  simpa only [Nat.add_sub_cancel] using hq

theorem reserve_runs {Q : Except PoolError Unit → Ledger → Prop} {limit amount : ℕ}
    (hok : Q (.ok ()) { l with reserved := l.reserved + amount })
    (herr : ∀ error, Q (.error error) l) :
    Runs pools Q (reserve limit amount : Program α _) l := by
  unfold reserve
  by_cases hpos : 0 < amount
  · rw [if_pos hpos]
    refine meets_bind ⟨trivial, fun ans _ => ?_⟩
    cases ans with
    | ok _ => exact hok
    | error current => exact herr _
  · rw [if_neg hpos]
    obtain rfl : amount = 0 := by omega
    exact hok

theorem loadCurrent_runs {Q : ℕ → Ledger → Prop} (hq : ∀ current, Q current l) :
    Runs pools Q (loadCurrent : Program α ℕ) l :=
  ⟨trivial, fun current _ => hq current⟩

theorem tryWithCapacity_runs {Q : Option (Buffer α) → Ledger → Prop} {pool capacity : ℕ}
    (hnone : Q none l)
    (hsome : ∀ value : Buffer α, value.contents = [] → capacity ≤ value.capacity →
      Fits pools pool value → Q (some value) l) :
    Runs pools Q (tryWithCapacity pool capacity) l := by
  refine ⟨trivial, fun ans hans => ?_⟩
  cases ans with
  | none => exact hnone
  | some value =>
    obtain ⟨hempty, hroom, hfits⟩ := hans value rfl
    exact hsome value hempty hroom hfits

theorem commit_runs {Q : Unit → Ledger → Prop} {size oldBytes reserved : ℕ}
    (hle : oldBytes ≤ size) (hold : l.replaced + oldBytes ≤ l.held)
    (hreserved : reserved = l.reserved + (size - oldBytes))
    (hq : Q () { l with held := l.held + size, replaced := l.replaced + oldBytes }) :
    Runs pools Q (commit size oldBytes : Program α Unit) { l with reserved := reserved } := by
  subst hreserved
  refine ⟨⟨hle, Nat.le_add_left _ _, hold⟩, fun _ _ => ?_⟩
  have hback : l.reserved + (size - oldBytes) - (size - oldBytes) = l.reserved :=
    Nat.add_sub_cancel ..
  show Q () { l with
    held := l.held + size
    reserved := l.reserved + (size - oldBytes) - (size - oldBytes)
    replaced := l.replaced + oldBytes }
  rw [hback]
  exact hq

/-- A failed allocation leaves the account as it was; one that succeeds holds the new buffer, and
owes what the buffer it is to replace was charged for. -/
theorem allocate_runs {Q : Except PoolError (Buffer α) → Ledger → Prop}
    {limit pool capacity oldBytes : ℕ} (hold : l.replaced + oldBytes ≤ l.held)
    (hok : ∀ value : Buffer α, value.contents = [] → capacity ≤ value.capacity →
      Fits pools pool value →
      Q (.ok value)
        { l with held := l.held + bytes pools pool value, replaced := l.replaced + oldBytes })
    (herr : ∀ error, Q (.error error) l) :
    Runs pools Q (allocate pools limit pool capacity oldBytes) l := by
  unfold allocate
  cases hrequest : (pools pool).bytesForCapacity capacity with
  | error error => exact herr error
  | ok requestedBytes =>
    have hrequested := bytesForCapacity_ok hrequest
    by_cases hsmall : requestedBytes < oldBytes
    · simp only [if_pos hsmall]
      exact herr _
    simp only [if_neg hsmall]
    refine meets_bind (reserve_runs ?_ fun error => herr error)
    refine meets_bind (tryWithCapacity_runs ?_ fun grown hempty hroom hfits => ?_)
    · refine meets_bind (loadCurrent_runs fun current => ?_)
      exact meets_bind (release_reserved (l := l) (herr _))
    have hmore : requestedBytes ≤ bytes pools pool grown := by
      rw [hrequested]
      exact Nat.mul_le_mul_right _ hroom
    have hless : ¬ bytes pools pool grown < oldBytes := by omega
    simp only [byteSize_of_fits hfits, if_neg hless]
    by_cases hextra : requestedBytes - oldBytes < bytes pools pool grown - oldBytes
    · simp only [if_pos hextra]
      refine meets_bind (reserve_runs ?_ fun error => ?_)
      · refine meets_bind (commit_runs (l := l) (by omega) hold ?_ (hok grown hempty hroom hfits))
        dsimp only
        omega
      · exact meets_bind (release_reserved (l := l) (herr _))
    · simp only [if_neg hextra]
      have hsame : requestedBytes - oldBytes - (bytes pools pool grown - oldBytes) = 0 := by omega
      rw [hsame]
      refine meets_bind (release_reservation (Nat.zero_le _) ?_)
      refine meets_bind (commit_runs (l := l) (by omega) hold ?_ (hok grown hempty hroom hfits))
      dsimp only
      omega

end Charges

section Queues

variable {pools} {l : Ledger} {pool : ℕ}

theorem tryGet_runs {Q : Option (Buffer α) → Ledger → Prop} {slot : Slot}
    (hpool : slot.pool ∈ l.refs) (hnone : Q none l)
    (hsome : ∀ value : Buffer α, value.contents = [] → Fits pools slot.pool value →
      Q (some value) (l.takes (bytes pools slot.pool value))) :
    Runs pools Q (tryGet slot) l := by
  refine ⟨hpool, fun ans hans => ?_⟩
  cases ans with
  | none => exact hnone
  | some value =>
    obtain ⟨hempty, hfits⟩ := hans value rfl
    exact hsome value hempty hfits

theorem push_runs {Q : Except (Buffer α) Unit → Ledger → Prop} {slot : Slot} {value : Buffer α}
    (hpool : slot.pool ∈ l.refs) (hempty : value.contents = [])
    (hfits : Fits pools slot.pool value) (hheld : bytes pools slot.pool value + l.replaced ≤ l.held)
    (hok : Q (.ok ()) (l.gives (bytes pools slot.pool value))) (herr : Q (.error value) l) :
    Runs pools Q (push slot value) l := by
  refine ⟨⟨hpool, hempty, hfits, hheld⟩, fun ans hans => ?_⟩
  cases ans with
  | ok _ => exact hok
  | error rejected =>
    obtain rfl := hans rejected rfl
    exact herr

theorem len_runs {Q : ℕ → Ledger → Prop} {slot : Slot} (hq : ∀ n, Q n l) :
    Runs pools Q (len slot : Program α ℕ) l :=
  ⟨trivial, fun n _ => hq n⟩

theorem releaseValue_runs {Q : ℕ → Ledger → Prop} {value : Buffer α}
    (hfits : Fits pools pool value) (hheld : bytes pools pool value + l.replaced ≤ l.held)
    (hq : ∀ n, Q n (l.gives (bytes pools pool value))) :
    Runs pools Q (releaseValue pools pool value) l := by
  unfold releaseValue
  rw [byteSizeOrMax_of_fits hfits]
  exact meets_bind (release_buffer hheld (hq _))

/-- Queued or released, a value that is put away is given up with its charge. -/
theorem put_runs {Q : Unit → Ledger → Prop} {value : Buffer α} {shard : ℕ}
    (hpool : pool ∈ l.refs) (hfits : Fits pools pool value)
    (hheld : bytes pools pool value + l.replaced ≤ l.held)
    (hq : Q () (l.gives (bytes pools pool value))) :
    Runs pools Q (put pools pool value shard) l := by
  unfold put
  by_cases hretains : (pools pool).retains value.clear = true
  · simp only [if_pos hretains]
    refine meets_bind (push_runs hpool rfl (fits_clear hfits) hheld hq ?_)
    exact meets_bind (releaseValue_runs (fits_clear hfits) hheld fun _ => hq)
  · simp only [if_neg hretains]
    exact meets_bind (releaseValue_runs (fits_clear hfits) hheld fun _ => hq)

theorem trySteal_runs {Q : Option (Buffer α) → Ledger → Prop} {home : ℕ}
    (hpool : pool ∈ l.refs) (hnone : Q none l)
    (hsome : ∀ value : Buffer α, value.contents = [] → Fits pools pool value →
      Q (some value) (l.takes (bytes pools pool value))) :
    Runs pools Q (trySteal pools pool home) l := by
  unfold trySteal
  refine meets_bind (meets_forEach (I := fun _ _ l' => l' = l) ?_ ?_ rfl)
  · rintro offset _ _ _ rfl
    exact meets_bind (tryGet_runs hpool rfl hsome)
  · rintro _ _ rfl
    exact hnone

/-- An acquired value is empty, and charged for when it came from a queue. -/
theorem acquire_runs {Q : Buffer α → Ledger → Prop} {shard : ℕ} (hpool : pool ∈ l.refs)
    (hq : ∀ value : Buffer α, value.contents = [] → Fits pools pool value →
      Q value (l.takes (bytes pools pool value))) :
    Runs pools Q (acquire pools pool shard) l := by
  have hdefault : Q (pools pool).default l := by
    have h := hq (pools pool).default rfl (fits_default pool)
    rwa [bytes_default] at h
  unfold acquire
  refine meets_bind (tryGet_runs hpool ?_ hq)
  refine meets_bind (trySteal_runs hpool ?_ hq)
  refine meets_bind ?_
  unfold popCold
  by_cases hcold : 0 < (pools pool).initialBuffers
  · rw [if_pos hcold]
    exact tryGet_runs hpool hdefault hq
  · rw [if_neg hcold]
    exact hdefault

end Queues

section Reclaim

variable {pools} {l : Ledger} {pool : ℕ}

theorem releaseFrom_runs {Q : ℕ ⊕ ℕ → Ledger → Prop} {slot : Slot} {target released : ℕ}
    (hslot : slot.pool = pool) (hpool : pool ∈ l.refs) (hheld : l.replaced ≤ l.held)
    (hq : ∀ result, Q result l) :
    Runs pools Q (releaseFrom (α := α) pools slot pool target released) l := by
  subst hslot
  unfold releaseFrom
  refine meets_bind (len_runs fun candidates => ?_)
  refine meets_forEach (I := fun _ _ l' => l' = l) ?_ ?_ rfl
  · rintro _ _ released _ rfl
    refine meets_bind (tryGet_runs hpool (hq _) fun value _ hfits => ?_)
    refine meets_bind (releaseValue_runs hfits ?_ fun size => ?_)
    · unfold Ledger.takes
      dsimp only
      omega
    rw [takes_gives]
    by_cases hdone : target ≤ saturatingAdd released size
    · simp only [if_pos hdone]
      exact hq _
    · simp only [if_neg hdone]
      exact rfl
  · rintro _ _ rfl
    exact hq _

theorem releaseIdle_runs {Q : ℕ → Ledger → Prop} {target : ℕ} (hpool : pool ∈ l.refs)
    (hheld : l.replaced ≤ l.held) (hq : ∀ n, Q n l) :
    Runs pools Q (releaseIdle (α := α) pools pool target) l := by
  unfold releaseIdle
  by_cases hzero : target = 0
  · rw [if_pos hzero]
    exact hq 0
  rw [if_neg hzero]
  refine meets_bind (meets_forEach (I := fun _ _ l' => l' = l) ?_ ?_ rfl)
  · rintro index _ released _ rfl
    refine meets_bind (releaseFrom_runs rfl hpool hheld fun result => ?_)
    cases result with
    | inl released => exact rfl
    | inr released => exact hq released
  · rintro released _ rfl
    by_cases hcold : 0 < (pools pool).initialBuffers
    · simp only [if_pos hcold]
      refine meets_bind (releaseFrom_runs rfl hpool hheld fun result => ?_)
      cases result with
      | inl released => exact hq released
      | inr released => exact hq released
    · simp only [if_neg hcold]
      exact hq released

theorem loadReclaimers_runs {Q : Option (List ℕ) → Ledger → Prop} (hq : ∀ slots, Q slots l) :
    Runs pools Q (loadReclaimers : Program α _) l :=
  ⟨trivial, fun slots _ => hq slots⟩

theorem nextReclaimer_runs {Q : ℕ → Ledger → Prop} (hq : ∀ n, Q n l) :
    Runs pools Q (nextReclaimer : Program α ℕ) l :=
  ⟨trivial, fun n _ => hq n⟩

theorem upgrade_runs {Q : Bool → Ledger → Prop} (hdead : Q false l)
    (hlive : Q true { l with refs := pool :: l.refs }) :
    Runs pools Q (upgrade pool : Program α Bool) l := by
  refine ⟨trivial, fun upgraded _ => ?_⟩
  cases upgraded with
  | false => exact hdead
  | true => exact hlive

theorem downgrade_runs {Q : Unit → Ledger → Prop} (hq : Q () l) :
    Runs pools Q (downgrade pool : Program α Unit) { l with refs := pool :: l.refs } := by
  refine ⟨List.mem_cons_self, fun _ _ => ?_⟩
  have hback : (pool :: l.refs).erase pool = l.refs := List.erase_cons_head ..
  show Q () { l with refs := (pool :: l.refs).erase pool }
  rw [hback]
  exact hq

/-- A reclaim keeps a pool alive only while it scans it. -/
theorem reclaim_runs {Q : ℕ → Ledger → Prop} {target : ℕ} (hheld : l.replaced ≤ l.held)
    (hq : ∀ n, Q n l) : Runs pools Q (reclaim (α := α) pools target) l := by
  unfold reclaim
  by_cases hzero : target = 0
  · rw [if_pos hzero]
    exact hq 0
  rw [if_neg hzero]
  refine meets_bind (loadReclaimers_runs fun reclaimers => ?_)
  cases reclaimers with
  | none => exact hq 0
  | some reclaimers =>
    by_cases hnone : reclaimers.isEmpty = true
    · simp only [if_pos hnone]
      exact hq 0
    simp only [if_neg hnone]
    refine meets_bind (nextReclaimer_runs fun next => ?_)
    refine meets_bind (meets_forEach (I := fun _ _ l' => l' = l) ?_ ?_ rfl)
    · rintro offset _ released _ rfl
      refine meets_bind (upgrade_runs rfl ?_)
      refine meets_bind (releaseIdle_runs List.mem_cons_self hheld fun freed => ?_)
      refine meets_bind (downgrade_runs ?_)
      by_cases hdone : target ≤ saturatingAdd released freed
      · simp only [if_pos hdone]
        exact hq _
      · simp only [if_neg hdone]
        exact rfl
    · rintro released _ rfl
      exact hq released

end Reclaim

section Growth

variable {pools} {l : Ledger} {pool : ℕ} {current : Buffer α}

/-- The account after a buffer took the place of another one in hand. -/
def Ledger.exchange (l : Ledger) (taken given : ℕ) : Ledger := (l.takes taken).gives given

/-- Contents move without a reallocation, so the charge of the buffer that takes them stands. -/
theorem moveFrom_runs {Q : Buffer α → Ledger → Prop} {value other : Buffer α}
    (hempty : value.contents = []) (hroom : other.contents.length ≤ value.capacity)
    (hfits : Fits pools pool value)
    (hq : ∀ moved : Buffer α, moved.contents = other.contents →
      bytes pools pool moved = bytes pools pool value → Fits pools pool moved → Q moved l) :
    Runs pools Q (moveFrom value other) l := by
  have hlength : value.contents.length + other.contents.length ≤ value.capacity := by
    rw [hempty, List.length_nil]
    omega
  refine ⟨hlength, fun moved hmoved => ?_⟩
  obtain ⟨hcapacity, hcontents⟩ := hmoved hlength
  have hbytes : bytes pools pool moved = bytes pools pool value := by
    unfold bytes
    rw [hcapacity]
  refine hq moved ?_ hbytes ?_
  · rw [hcontents, hempty, List.nil_append]
  · unfold Fits
    rw [hbytes]
    exact hfits

theorem putCold_runs {Q : Unit → Ledger → Prop} {value : Buffer α} {home : ℕ}
    (hpool : pool ∈ l.refs) (hempty : value.contents = []) (hfits : Fits pools pool value)
    (hheld : bytes pools pool value + l.replaced ≤ l.held)
    (hq : Q () (l.gives (bytes pools pool value))) :
    Runs pools Q (putCold pools pool home value) l := by
  unfold putCold
  exact meets_bind (push_runs hpool hempty hfits hheld hq (put_runs hpool hfits hheld hq))

/-- What a scan for a buffer with the room leaves, given what it takes to give one back. -/
theorem reuseFrom_runs {Q : Unit ⊕ Buffer α → Ledger → Prop} {slot : Slot}
    {giveBack : Buffer α → Program α Unit} {home newLen : ℕ}
    (hslot : slot.pool = pool) (hpool : pool ∈ l.refs) (hfits : Fits pools pool current)
    (hheld : bytes pools pool current + l.replaced ≤ l.held) (hlong : current.capacity < newLen)
    (hback : ∀ value : Buffer α, value.contents = [] → Fits pools pool value →
      ∀ P : Unit → Ledger → Prop, P () l →
      Runs pools P (giveBack value) (l.takes (bytes pools pool value)))
    (hnone : Q (.inl ()) l)
    (hfound : ∀ value : Buffer α, value.contents = current.contents → Fits pools pool value →
      Q (.inr value) (l.exchange (bytes pools pool value) (bytes pools pool current))) :
    Runs pools Q (reuseFrom pools slot giveBack pool home current newLen) l := by
  subst hslot
  unfold reuseFrom
  refine meets_bind (len_runs fun candidates => ?_)
  refine meets_forEach (I := fun _ _ l' => l' = l) ?_ ?_ rfl
  · rintro _ _ _ _ rfl
    refine meets_bind (tryGet_runs hpool hnone fun value hempty hfitted => ?_)
    by_cases hroom : newLen ≤ value.capacity
    · simp only [if_pos hroom]
      have hholds := current.holds
      refine meets_bind (moveFrom_runs hempty (by omega) hfitted fun moved hmoved hsame hfit => ?_)
      refine meets_bind (put_runs hpool (fits_clear hfits) ?_ ?_)
      · rw [bytes_clear]
        unfold Ledger.takes
        dsimp only
        omega
      · rw [bytes_clear, ← hsame]
        exact hfound moved hmoved hfit
    · simp only [if_neg hroom]
      exact meets_bind (hback value hempty hfitted _ rfl)
  · rintro _ _ rfl
    exact hnone

theorem reuseForGrowth_runs {Q : Option (Buffer α) → Ledger → Prop} {home newLen : ℕ}
    (hpool : pool ∈ l.refs) (hfits : Fits pools pool current)
    (hheld : bytes pools pool current + l.replaced ≤ l.held) (hlong : current.capacity < newLen)
    (hnone : Q none l)
    (hfound : ∀ value : Buffer α, value.contents = current.contents → Fits pools pool value →
      Q (some value) (l.exchange (bytes pools pool value) (bytes pools pool current))) :
    Runs pools Q (reuseForGrowth pools pool current newLen home) l := by
  have hhand : ∀ value : Buffer α, bytes pools pool value +
      (l.takes (bytes pools pool value)).replaced ≤ (l.takes (bytes pools pool value)).held := by
    intro value
    unfold Ledger.takes
    dsimp only
    omega
  unfold reuseForGrowth
  refine meets_bind (meets_forEach (I := fun _ _ l' => l' = l) ?_ ?_ rfl)
  · rintro offset _ _ _ rfl
    refine meets_bind (reuseFrom_runs rfl hpool hfits hheld hlong ?_ rfl hfound)
    intro value _ hfitted P hp
    exact put_runs hpool hfitted (hhand value) (by rwa [takes_gives])
  · rintro _ _ rfl
    by_cases hcold : 0 < (pools pool).initialBuffers
    · simp only [if_pos hcold]
      refine meets_bind (reuseFrom_runs rfl hpool hfits hheld hlong ?_ hnone hfound)
      intro value hempty hfitted P hp
      exact putCold_runs hpool hempty hfitted (hhand value) (by rwa [takes_gives])
    · simp only [if_neg hcold]
      exact hnone

theorem reclaimFor_runs {Q : Bool → Ledger → Prop} {error : PoolError}
    (hheld : l.replaced ≤ l.held) (hq : ∀ b, Q b l) :
    Runs pools Q (reclaimFor (α := α) pools error) l := by
  cases error with
  | overallBudgetExceeded additional allocated limit =>
    exact meets_bind (reclaim_runs hheld fun _ => hq true)
  | allocationFailed additional allocated limit => exact hq false
  | capacityOverflow elements size => exact hq false
  | invalidConfig field reason => exact hq false

/-- A grown buffer takes the contents over, and what was owed for the old one is settled. -/
theorem installGrown_runs {Q : Except PoolError Unit × Buffer α → Ledger → Prop}
    {grown : Buffer α} (hempty : grown.contents = []) (hroom : current.capacity ≤ grown.capacity)
    (hfits : Fits pools pool grown)
    (hq : ∀ value : Buffer α, value.contents = current.contents → Fits pools pool value →
      Q (.ok (), value) (l.exchange (bytes pools pool value) (bytes pools pool current))) :
    Runs pools Q (installGrown grown current (bytes pools pool current))
      { l with
        held := l.held + bytes pools pool grown
        replaced := l.replaced + bytes pools pool current } := by
  unfold installGrown
  have hholds := current.holds
  refine meets_bind (moveFrom_runs hempty (by omega) hfits fun moved hmoved hsame hfit => ?_)
  refine meets_bind ⟨Nat.le_add_left _ _, fun _ _ => ?_⟩
  have hsettled : l.replaced + bytes pools pool current - bytes pools pool current = l.replaced :=
    Nat.add_sub_cancel ..
  show Q (.ok (), moved) { l with
    held := l.held + bytes pools pool grown - bytes pools pool current
    replaced := l.replaced + bytes pools pool current - bytes pools pool current }
  rw [hsettled, ← hsame]
  exact hq moved hmoved hfit

theorem reuseAfter_runs {Q : Option (Buffer α) → Ledger → Prop} {home newLen : ℕ}
    {error : PoolError} (hpool : pool ∈ l.refs) (hfits : Fits pools pool current)
    (hheld : bytes pools pool current + l.replaced ≤ l.held) (hlong : current.capacity < newLen)
    (hnone : Q none l)
    (hfound : ∀ value : Buffer α, value.contents = current.contents → Fits pools pool value →
      Q (some value) (l.exchange (bytes pools pool value) (bytes pools pool current))) :
    Runs pools Q (reuseAfter pools error pool current newLen home) l := by
  unfold reuseAfter
  by_cases hmay : error.mayReuse = true
  · rw [if_pos hmay]
    exact reuseForGrowth_runs hpool hfits hheld hlong hnone hfound
  · rw [if_neg hmay]
    exact hnone

theorem growUnderPressure_runs {Q : Except PoolError Unit × Buffer α → Ledger → Prop}
    {limit home newLen target : ℕ} {error : PoolError}
    (hpool : pool ∈ l.refs) (hfits : Fits pools pool current)
    (hheld : bytes pools pool current + l.replaced ≤ l.held) (hlong : current.capacity < newLen)
    (htarget : newLen ≤ target)
    (hok : ∀ value : Buffer α, value.contents = current.contents → Fits pools pool value →
      Q (.ok (), value) (l.exchange (bytes pools pool value) (bytes pools pool current)))
    (herr : ∀ error, Q (.error error, current) l) :
    Runs pools Q (growUnderPressure pools limit pool current newLen home target
      (bytes pools pool current) error) l := by
  unfold growUnderPressure
  refine meets_bind (reuseAfter_runs hpool hfits hheld hlong ?_ hok)
  refine meets_bind (reclaimFor_runs (by omega) fun reclaimed => ?_)
  cases reclaimed with
  | false => exact herr error
  | true =>
    refine meets_bind (allocate_runs (by omega) ?_ fun error => herr error)
    intro grown hempty hroom hfitted
    exact installGrown_runs hempty (by omega) hfitted hok

/-- A growth that fails leaves the buffer and the account of its task as they were; one that
succeeds keeps the contents. -/
theorem grow_runs {Q : Except PoolError Unit × Buffer α → Ledger → Prop} {limit home newLen : ℕ}
    (hpool : pool ∈ l.refs) (hfits : Fits pools pool current)
    (hheld : bytes pools pool current + l.replaced ≤ l.held)
    (hok : ∀ value : Buffer α, value.contents = current.contents → Fits pools pool value →
      Q (.ok (), value) (l.exchange (bytes pools pool value) (bytes pools pool current)))
    (herr : ∀ error, Q (.error error, current) l) :
    Runs pools Q (grow pools limit pool current newLen home) l := by
  have hkept : Q (.ok (), current) l := by
    have h := hok current rfl hfits
    rwa [Ledger.exchange, takes_gives] at h
  unfold grow
  by_cases hlong : newLen ≤ current.capacity
  · rw [if_pos hlong]
    exact hkept
  rw [if_neg hlong]
  cases hold : (pools pool).bytesForCapacity current.capacity with
  | error error => exact herr error
  | ok oldBytes =>
    obtain rfl : oldBytes = bytes pools pool current := bytesForCapacity_ok hold
    cases helement : (pools pool).bytesForCapacity 1 with
    | error error => exact herr error
    | ok elementBytes =>
      by_cases hzero : elementBytes = 0
      · simp only [if_pos hzero]
        exact hkept
      simp only [if_neg hzero]
      refine meets_bind (loadCurrent_runs fun allocated => ?_)
      have htarget := targetCapacity_ge newLen current.capacity (bytes pools pool current)
        (limit - allocated) elementBytes
      refine meets_bind (allocate_runs (by omega) ?_ fun error => ?_)
      · intro grown hempty hroom hfitted
        exact installGrown_runs hempty (by omega) hfitted hok
      · exact growUnderPressure_runs hpool hfits hheld (by omega) htarget hok herr

end Growth

section Holding

variable {pools} {l : Ledger} {pool : ℕ} {current : Buffer α}

theorem normalize_runs {Q : Buffer α → Ledger → Prop} (hfits : Fits pools pool current)
    (hheld : bytes pools pool current + l.replaced ≤ l.held)
    (hq : ∀ value : Buffer α, Fits pools pool value →
      Q value (l.exchange (bytes pools pool value) (bytes pools pool current))) :
    Runs pools Q (PoolOperations.normalize pools pool current) l := by
  unfold PoolOperations.normalize
  by_cases hretains : (pools pool).retains current.clear = true
  · rw [if_pos hretains]
    have h := hq current.clear (fits_clear hfits)
    rwa [bytes_clear, Ledger.exchange, takes_gives] at h
  · rw [if_neg hretains]
    refine meets_bind (releaseValue_runs (fits_clear hfits) hheld fun _ => ?_)
    have h := hq (pools pool).default (fits_default pool)
    rwa [bytes_default] at h

theorem renew_runs {Q : Buffer α → Ledger → Prop} {shard : ℕ} (hpool : pool ∈ l.refs)
    (hfits : Fits pools pool current) (hheld : bytes pools pool current + l.replaced ≤ l.held)
    (hq : ∀ value : Buffer α, Fits pools pool value →
      Q value (l.exchange (bytes pools pool value) (bytes pools pool current))) :
    Runs pools Q (renew pools pool current shard) l := by
  refine meets_bind (put_runs hpool hfits hheld ?_)
  have h := hq (pools pool).default (fits_default pool)
  rwa [bytes_default] at h

theorem shrink_runs {Q : Buffer α → Ledger → Prop} {minCapacity : ℕ}
    (hq : ∀ value : Buffer α, value.capacity ≤ current.capacity → Q value l) :
    Runs pools Q (shrink current minCapacity) l :=
  ⟨trivial, fun value hvalue => hq value hvalue.2⟩

theorem shrinkTo_runs {Q : Buffer α → Ledger → Prop} {minCapacity : ℕ}
    (hfits : Fits pools pool current) (hheld : bytes pools pool current + l.replaced ≤ l.held)
    (hq : ∀ value : Buffer α, Fits pools pool value →
      Q value (l.exchange (bytes pools pool value) (bytes pools pool current))) :
    Runs pools Q (shrinkTo pools pool current minCapacity) l := by
  unfold shrinkTo
  refine meets_bind (shrink_runs fun after hafter => ?_)
  have hle : bytes pools pool after ≤ bytes pools pool current := bytes_mono hafter
  have hfitted : Fits pools pool after := Nat.lt_of_le_of_lt hle hfits
  have hledger : l.exchange (bytes pools pool after) (bytes pools pool current) =
      l.gives (bytes pools pool current - bytes pools pool after) := by
    have hheld' : l.held + bytes pools pool after - bytes pools pool current =
        l.held - (bytes pools pool current - bytes pools pool after) := by omega
    show ({ l with held := l.held + bytes pools pool after - bytes pools pool current } : Ledger) = _
    rw [hheld']
    rfl
  have h := hq after hfitted
  rw [hledger] at h
  rw [byteSizeOrMax_of_fits hfits, byteSizeOrMax_of_fits hfitted]
  exact meets_bind (release_shrunk hle hheld h)

end Holding

section Lifetime

variable {pools} {l : Ledger} {pool : ℕ}

theorem fillCold_runs {Q : Flow Unit PoolError → Ledger → Prop} {limit : ℕ}
    (hpool : pool ∈ l.refs) (hheld : l.replaced ≤ l.held) (hnext : Q (.next ()) l)
    (hfound : ∀ error, Q (.found error) l) :
    Runs pools Q (fillCold (α := α) pools limit pool) l := by
  unfold fillCold
  refine meets_bind (allocate_runs (by omega) ?_ fun error => hfound error)
  intro value hempty _ hfits
  have hhand : bytes pools pool value + l.replaced ≤ l.held + bytes pools pool value := by omega
  have hback : (l.takes (bytes pools pool value)).gives (bytes pools pool value) = l :=
    takes_gives ..
  show Runs pools Q _ (l.takes (bytes pools pool value))
  refine meets_bind (push_runs hpool hempty hfits hhand ?_ ?_)
  · show Q (.next ()) ((l.takes (bytes pools pool value)).gives (bytes pools pool value))
    rw [hback]
    exact hnext
  · simp only [byteSize_of_fits hfits]
    refine meets_bind (release_buffer hhand ?_)
    rw [hback]
    exact hfound _

theorem newCore_runs {Q : Except PoolError Unit → Ledger → Prop} {limit : ℕ}
    (hpool : pool ∈ l.refs) (hheld : l.replaced ≤ l.held) (hq : ∀ result, Q result l) :
    Runs pools Q (newCore (α := α) pools limit pool) l := by
  unfold newCore
  cases (pools pool).validate with
  | error error => exact hq _
  | ok _ =>
    refine meets_bind (meets_forEach (I := fun _ _ l' => l' = l) ?_ ?_ rfl)
    · rintro _ _ _ _ rfl
      exact fillCold_runs hpool hheld rfl fun error => hq _
    · rintro _ _ rfl
      exact hq _

theorem dropCore_runs {Q : Unit → Ledger → Prop} {values : List (Buffer α)}
    (hfits : ∀ value ∈ values, Fits pools pool value)
    (hheld : (values.map (bytes pools pool)).sum + l.replaced ≤ l.held)
    (hq : Q () (l.gives (values.map (bytes pools pool)).sum)) :
    Runs pools Q (dropCore pools pool values) l := by
  unfold dropCore
  refine meets_bind (meets_forEach (I := fun rest _ l' =>
    (∀ value ∈ rest, Fits pools pool value) ∧ (rest.map (bytes pools pool)).sum + l'.replaced ≤ l'.held ∧
      l'.gives (rest.map (bytes pools pool)).sum = l.gives (values.map (bytes pools pool)).sum)
    ?_ ?_ ⟨hfits, hheld, rfl⟩)
  · rintro value rest _ l' ⟨hfit, hhold, hsame⟩
    rw [List.map_cons, List.sum_cons] at hhold hsame
    refine meets_bind (releaseValue_runs (hfit value List.mem_cons_self) (by omega) fun _ => ?_)
    refine ⟨fun w hw => hfit w (List.mem_cons_of_mem value hw), ?_, ?_⟩
    · unfold Ledger.gives
      dsimp only
      omega
    · rw [← hsame]
      unfold Ledger.gives
      rw [Nat.sub_add_eq]
  · rintro _ l' ⟨_, _, hsame⟩
    have hnone : l'.gives 0 = l' := rfl
    rw [List.map_nil, List.sum_nil, hnone] at hsame
    rw [hsame]
    exact hq

end Lifetime

end PoolAccounts

import Kithara.AssetPins
import Kithara.TransitionSystem

/-! The handles of a store and the pins they hold: guards shared by the handles of one lease, the
set of durably pinned roots on disk, and what a restart makes of it. A pin is counted, the durable
roots are read, and the set is written, each a step of its own. -/
namespace PinLeases

open AssetPins TransitionSystem

variable (Root Path : Type*) [DecidableEq Root] [DecidableEq Path]

structure Lease where
  root : Root
  path : Path
  durability : PinDurability
  /-- Counted, and not handed out before the set on disk is written. -/
  arriving : Bool
  readers : ℕ
  writers : ℕ

variable {Path} in
/-- A write of the durable set, under the lock of the file. -/
structure Flight where
  roots : List Root
  /-- The lease that waits for it. -/
  owner : Option ℕ

structure State where
  pins : PinsIndex Root
  /-- The durable set as last written. -/
  file : List Root
  flight : Option (Flight Root)
  leases : List (Lease Root Path)
  /-- Writes that earlier runs left unfinished. -/
  left : List (Root × Path)

inductive Action where
  | openReader (root : Root) (path : Path)
  | pinWriter (root : Root) (path : Path)
  /-- A flush reads the durable roots, for a lease that waits or for none. -/
  | snapshot (owner : Option ℕ)
  | write (ok : Bool)
  | clone (lease : ℕ)
  /-- A writer's own reader. -/
  | view (lease : ℕ)
  | commit (lease : ℕ)
  | reactivate (lease : ℕ)
  | dropReader (lease : ℕ)
  /-- A writer ends uncommitted, and takes away the partial resource or leaves it. -/
  | dropWriter (lease : ℕ) (swept : Bool)
  | deleteAsset (root : Root)
  | crash

variable {Root Path}

namespace Lease

def withHandles (l : Lease Root Path) (readers writers : ℕ) : Lease Root Path :=
  { l with readers := readers, writers := writers }

def alive (l : Lease Root Path) : Bool := 0 < l.readers + l.writers

def holds (l : Lease Root Path) : Bool := l.arriving || l.alive

def holdsOn (l : Lease Root Path) (root : Root) (d : PinDurability) : Bool :=
  l.holds && (l.root = root && l.durability = d)

end Lease

def start : State Root Path :=
  { pins := .empty, file := [], flight := none, leases := [], left := [] }

namespace State

variable (s : State Root Path)

def withLease (i : ℕ) (l : Lease Root Path) : State Root Path :=
  { s with leases := s.leases.set i l }

def onLease (i : ℕ) (f : Lease Root Path → State Root Path) : State Root Path :=
  s.leases[i]?.elim s f

def release (i : ℕ) (l : Lease Root Path) : State Root Path :=
  if l.alive then s.withLease i l
  else { s.withLease i l with pins := (s.pins.remove l.root l.durability).1 }

/-- The write of one resource is no longer left by anyone. -/
def finish (root : Root) (path : Path) : State Root Path :=
  { s with left := s.left.filter fun write => write ≠ (root, path) }

def landed (flight : Flight Root) (ok : Bool) : State Root Path :=
  { s with file := if ok then flight.roots else s.file, flight := none }

end State

def Enabled (s : State Root Path) : Action Root Path → Prop
  | .snapshot owner => s.flight = none ∧ ∀ i ∈ owner, ∃ l ∈ s.leases[i]?, l.arriving = true
  | .write _ => s.flight.isSome
  | .clone i | .reactivate i | .dropReader i => ∃ l ∈ s.leases[i]?, 0 < l.readers
  | .view i | .commit i | .dropWriter i _ => ∃ l ∈ s.leases[i]?, 0 < l.writers
  | _ => True

instance (s : State Root Path) : (a : Action Root Path) → Decidable (Enabled s a)
  | .openReader _ _ | .pinWriter _ _ | .deleteAsset _ | .crash => isTrue trivial
  | .snapshot owner => inferInstanceAs (Decidable (s.flight = none ∧
      ∀ i ∈ owner, ∃ l ∈ s.leases[i]?, l.arriving = true))
  | .write _ => inferInstanceAs (Decidable (s.flight.isSome = true))
  | .clone i | .reactivate i | .dropReader i =>
    inferInstanceAs (Decidable (∃ l ∈ s.leases[i]?, 0 < l.readers))
  | .view i | .commit i | .dropWriter i _ =>
    inferInstanceAs (Decidable (∃ l ∈ s.leases[i]?, 0 < l.writers))

def next (s : State Root Path) : Action Root Path → State Root Path
  | .openReader root path =>
    { s with
      pins := (s.pins.add root .local).1
      leases := s.leases ++ [⟨root, path, .local, false, 1, 0⟩] }
  | .pinWriter root path =>
    let added := s.pins.add root .durable
    { s with
      pins := added.1
      leases := s.leases ++
        [⟨root, path, .durable, added.2.2, 0, if added.2.2 then 0 else 1⟩] }
  | .snapshot owner => { s with flight := some ⟨s.pins.durableRoots, owner⟩ }
  | .write ok => match s.flight with
    | none => s
    | some flight => match flight.owner with
      | none => s.landed flight ok
      -- an acquisition that fails makes no guard for the pin it counted
      | some i => (s.landed flight ok).onLease i fun l =>
        (s.landed flight ok).withLease i
          { l with arriving := false, writers := if ok then 1 else 0 }
  | .clone i | .view i => s.onLease i fun l => s.withLease i (l.withHandles (l.readers + 1) l.writers)
  | .commit i => s.onLease i fun l =>
    (s.withLease i (l.withHandles (l.readers + 1) (l.writers - 1))).finish
      l.root l.path
  | .reactivate i => s.onLease i fun l =>
    s.withLease i (l.withHandles (l.readers - 1) (l.writers + 1))
  | .dropReader i => s.onLease i fun l => s.release i (l.withHandles (l.readers - 1) l.writers)
  | .dropWriter i swept => s.onLease i fun l =>
    let s := s.release i (l.withHandles l.readers (l.writers - 1))
    if swept then s.finish l.root l.path else s
  | .deleteAsset root =>
    { s with
      pins := (s.pins.remove root .durable).1
      left := s.left.filter fun write => write.1 ≠ root }
  | .crash =>
    { s with
      pins := .hydrate s.file
      flight := none
      leases := []
      left := s.left ++ (s.leases.filter fun l => 0 < l.writers).map fun l => (l.root, l.path) }

def machine : Machine (State Root Path) (Action Root Path) where
  Enabled := Enabled
  next := next

instance (s : State Root Path) (a : Action Root Path) : Decidable (machine.Enabled s a) :=
  inferInstanceAs (Decidable (Enabled s a))

/-- What pins promise: no eviction under a handle, no loss of an unfinished write, and none left
behind. -/
structure Pinned (s : State Root Path) : Prop where
  alive : ∀ l ∈ s.leases, l.alive = true → l.root ∈ s.pins.snapshot
  written : ∀ l ∈ s.leases, 0 < l.writers → l.root ∈ s.file
  idle : ∀ root, (∀ l ∈ s.leases, l.root = root → l.holds = false) →
    (∀ write ∈ s.left, write.1 ≠ root) → root ∉ s.pins.snapshot

def LeftUnder (s : State Root Path) (root : Root) : Prop := ∃ write ∈ s.left, write.1 = root

/-- The root is in the set on disk, and in the set about to replace it. -/
def Recorded (s : State Root Path) (root : Root) : Prop :=
  root ∈ s.file ∧ ∀ flight ∈ s.flight, root ∈ flight.roots

/-- The write is none an earlier run left, or not the last of its root. -/
def NotLast (s : State Root Path) (root : Root) (path : Path) : Prop :=
  (root, path) ∉ s.left ∨ ∃ write ∈ s.left, write.1 = root ∧ write.2 ≠ path

/-- The steps that keep pins sound: counts below their limit, a second writer of a root only once
the set with it is on disk, a set that is written when a writer waits for it, no reader's guard
under a writer, no asset deleted under a durable guard of this run, and no restart that finds a
root on disk without an unfinished write, nor the end of the last write that gave one its pin. -/
def Careful (s : State Root Path) : Action Root Path → Prop
  | .openReader root _ => (s.pins.count root).of .local < maxCount
  | .pinWriter root _ => (s.pins.count root).of .durable < maxCount ∧
    ((s.pins.count root).of .durable = 0 ∨ Recorded s root)
  | .write ok => ok = true ∨ ∀ flight ∈ s.flight, flight.owner = none
  | .commit i => ∀ l ∈ s.leases[i]?, NotLast s l.root l.path
  | .reactivate i => ∀ l ∈ s.leases[i]?, l.durability = .durable
  | .dropWriter i swept => swept = true → ∀ l ∈ s.leases[i]?, NotLast s l.root l.path
  | .deleteAsset root => LeftUnder s root ∨
    ∀ l ∈ s.leases, l.root = root → l.durability = .durable → l.holds = false
  | .crash => ∀ root ∈ s.file, (∃ l ∈ s.leases, l.root = root ∧ 0 < l.writers) ∨ LeftUnder s root
  | _ => True

instance (s : State Root Path) (root : Root) : Decidable (LeftUnder s root) :=
  inferInstanceAs (Decidable (∃ write ∈ s.left, write.1 = root))

instance (s : State Root Path) (root : Root) : Decidable (Recorded s root) :=
  inferInstanceAs (Decidable (_ ∧ ∀ flight ∈ s.flight, root ∈ flight.roots))

instance (s : State Root Path) (root : Root) (path : Path) : Decidable (NotLast s root path) :=
  inferInstanceAs (Decidable (_ ∨ ∃ write ∈ s.left, write.1 = root ∧ write.2 ≠ path))

instance (s : State Root Path) : (a : Action Root Path) → Decidable (Careful s a)
  | .clone _ | .view _ | .snapshot _ | .dropReader _ => isTrue trivial
  | .openReader root _ => inferInstanceAs (Decidable ((s.pins.count root).of .local < maxCount))
  | .pinWriter root _ => inferInstanceAs (Decidable ((s.pins.count root).of .durable < maxCount ∧
      ((s.pins.count root).of .durable = 0 ∨ Recorded s root)))
  | .write ok => inferInstanceAs (Decidable (ok = true ∨ ∀ flight ∈ s.flight, flight.owner = none))
  | .commit i => inferInstanceAs (Decidable (∀ l ∈ s.leases[i]?, NotLast s l.root l.path))
  | .reactivate i => inferInstanceAs (Decidable (∀ l ∈ s.leases[i]?, l.durability = .durable))
  | .dropWriter i swept => inferInstanceAs
      (Decidable (swept = true → ∀ l ∈ s.leases[i]?, NotLast s l.root l.path))
  | .deleteAsset root => inferInstanceAs (Decidable (LeftUnder s root ∨
      ∀ l ∈ s.leases, l.root = root → l.durability = .durable → l.holds = false))
  | .crash => inferInstanceAs (Decidable (∀ root ∈ s.file,
      (∃ l ∈ s.leases, l.root = root ∧ 0 < l.writers) ∨ LeftUnder s root))

def State.held (s : State Root Path) (root : Root) (d : PinDurability) : ℕ :=
  s.leases.countP fun l => l.holdsOn root d

/-- The one durable pin that stands for the writes an earlier run left. -/
def State.standing (s : State Root Path) (root : Root) : PinDurability → ℕ
  | .durable => if LeftUnder s root then 1 else 0
  | .local => 0

/-- Each pin counted is one guard's, or stands for the writes an earlier run left. -/
structure Sound (s : State Root Path) : Prop where
  counts : ∀ root d, (s.pins.count root).of d = s.held root d + s.standing root d
  written : ∀ l ∈ s.leases, l.alive = true → l.durability = .durable → Recorded s l.root
  leftWritten : ∀ write ∈ s.left, Recorded s write.1
  owner : ∀ flight ∈ s.flight, ∀ i ∈ flight.owner,
    ∃ l ∈ s.leases[i]?, l.arriving = true ∧ l.root ∈ flight.roots
  writers : ∀ l ∈ s.leases, 0 < l.writers → l.durability = .durable
  arriving : ∀ l ∈ s.leases, l.arriving = true →
    l.durability = .durable ∧ l.readers = 0 ∧ l.writers = 0

variable {s : State Root Path} {i : ℕ} {l l' : Lease Root Path} {root : Root} {path : Path}
  {d : PinDurability}

omit [DecidableEq Root] [DecidableEq Path] in
theorem holds_of_alive (h : l.alive = true) : l.holds = true := by
  simp [Lease.holds, h]

omit [DecidableEq Path] in
theorem holdsOn_iff : l.holdsOn root d = true ↔
    l.holds = true ∧ l.root = root ∧ l.durability = d := by
  simp [Lease.holdsOn]

omit [DecidableEq Path] in
theorem held_pos (hl : l ∈ s.leases) (h : l.holds = true) : 0 < s.held l.root l.durability :=
  List.countP_pos_iff.mpr ⟨l, hl, holdsOn_iff.mpr ⟨h, rfl, rfl⟩⟩

omit [DecidableEq Path] in
theorem held_zero (h : ∀ l ∈ s.leases, l.root = root → l.durability = d → l.holds = false) :
    s.held root d = 0 := by
  apply List.countP_eq_zero.mpr
  intro l hl hon
  obtain ⟨hholds, hroot, hdurability⟩ := holdsOn_iff.mp hon
  rw [h l hl hroot hdurability] at hholds
  cases hholds

omit [DecidableEq Path] in
theorem standing_of_not (h : ¬ LeftUnder s root) : s.standing root d = 0 := by
  cases d with
  | durable => exact if_neg h
  | «local» => rfl

omit [DecidableEq Path] in
theorem count_pos (h : Sound s) (hl : l ∈ s.leases) (hholds : l.holds = true) :
    0 < (s.pins.count l.root).of l.durability := by
  rw [h.counts]
  exact Nat.add_pos_left (held_pos hl hholds) _

omit [DecidableEq Path] in
theorem sound_pinned (h : Sound s) : Pinned s := by
  refine ⟨fun l hl halive => ?_, fun l hl hwriters => ?_, fun root hnone hleft => ?_⟩
  · exact PinsIndex.mem_snapshot.mpr ⟨l.durability, count_pos h hl (holds_of_alive halive)⟩
  · apply (h.written l hl _ (h.writers l hl hwriters)).1
    simp only [Lease.alive, decide_eq_true_eq]
    omega
  · rw [PinsIndex.mem_snapshot]
    rintro ⟨d, hd⟩
    have hheld : s.held root d = 0 := held_zero fun l hl hroot _ => hnone l hl hroot
    have hstanding : s.standing root d = 0 :=
      standing_of_not fun ⟨write, hmem, heq⟩ => hleft write hmem heq
    rw [h.counts, hheld, hstanding] at hd
    exact Nat.lt_irrefl 0 hd

omit [DecidableEq Path] in
variable (l' root d) in
theorem held_withLease (hl : s.leases[i]? = some l) :
    (s.withLease i l').held root d + (if l.holdsOn root d then 1 else 0) =
      s.held root d + if l'.holdsOn root d then 1 else 0 := by
  obtain ⟨hi, hget⟩ := List.getElem?_eq_some_iff.mp hl
  have hle : (if l.holdsOn root d then 1 else 0) ≤ s.held root d := by
    split
    · rename_i hon
      exact List.countP_pos_iff.mpr ⟨l, List.mem_of_getElem? hl, hon⟩
    · exact Nat.zero_le _
  simp only [State.held] at hle ⊢
  rw [State.withLease, List.countP_set hi, hget]
  omega

omit [DecidableEq Path] in
theorem mem_withLease {k : Lease Root Path} (h : k ∈ (s.withLease i l').leases) :
    k ∈ s.leases ∨ k = l' := List.mem_or_eq_of_mem_set h

omit [DecidableEq Path] in
theorem owner_ne (h : Sound s) (hl : s.leases[i]? = some l) (harriving : l.arriving = false) :
    ∀ flight ∈ s.flight, flight.owner ≠ some i := by
  intro flight hflight howner
  obtain ⟨k, hk, hkarriving, _⟩ := h.owner flight hflight i howner
  rw [hl, Option.mem_some_iff] at hk
  rw [← hk, harriving] at hkarriving
  cases hkarriving

omit [DecidableEq Path] in
theorem replace_sound {pins : PinsIndex Root} (h : Sound s)
    (hcounts : ∀ root d, (pins.count root).of d = (s.withLease i l').held root d + s.standing root d)
    (howner : ∀ flight ∈ s.flight, flight.owner ≠ some i)
    (hwritten : l'.alive = true → l'.durability = .durable → Recorded s l'.root)
    (hwriters : 0 < l'.writers → l'.durability = .durable)
    (harriving : l'.arriving = true → l'.durability = .durable ∧ l'.readers = 0 ∧ l'.writers = 0) :
    Sound { s.withLease i l' with pins := pins } := by
  refine ⟨hcounts, fun k hk => ?_, h.leftWritten, fun flight hflight j hj => ?_,
    fun k hk => ?_, fun k hk => ?_⟩
  · rcases mem_withLease hk with hk | rfl
    · exact h.written k hk
    · exact hwritten
  · have hne : i ≠ j := by
      rintro rfl
      exact howner flight hflight hj
    rw [State.withLease, List.getElem?_set_ne hne]
    exact h.owner flight hflight j hj
  · rcases mem_withLease hk with hk | rfl
    · exact h.writers k hk
    · exact hwriters
  · rcases mem_withLease hk with hk | rfl
    · exact h.arriving k hk
    · exact harriving

omit [DecidableEq Path] in
theorem withLease_sound (h : Sound s) (hl : s.leases[i]? = some l)
    (hsame : l'.root = l.root ∧ l'.durability = l.durability ∧ l'.holds = l.holds)
    (howner : ∀ flight ∈ s.flight, flight.owner ≠ some i)
    (hwritten : l'.alive = true → l'.durability = .durable → Recorded s l'.root)
    (hwriters : 0 < l'.writers → l'.durability = .durable)
    (harriving : l'.arriving = true → l'.durability = .durable ∧ l'.readers = 0 ∧ l'.writers = 0) :
    Sound (s.withLease i l') := by
  apply replace_sound h _ howner hwritten hwriters harriving
  intro root d
  have hon : l'.holdsOn root d = l.holdsOn root d := by
    simp only [Lease.holdsOn, hsame]
  have hheld := held_withLease l' root d hl
  rw [hon] at hheld
  rw [h.counts, Nat.add_right_cancel hheld]

omit [DecidableEq Path] in
theorem not_arriving (h : Sound s) (hl : l ∈ s.leases) (halive : l.alive = true) :
    l.arriving = false := by
  cases harriving : l.arriving with
  | false => rfl
  | true =>
    obtain ⟨_, hreaders, hwriters⟩ := h.arriving l hl harriving
    simp [Lease.alive, hreaders, hwriters] at halive

omit [DecidableEq Path] in
theorem handles_sound {readers writers : ℕ} (h : Sound s) (hl : s.leases[i]? = some l)
    (halive : l.alive = true) (hpos : 0 < readers + writers)
    (hwriters : 0 < writers → l.durability = .durable) :
    Sound (s.withLease i (l.withHandles readers writers)) := by
  have hmem : l ∈ s.leases := List.mem_of_getElem? hl
  have harriving := not_arriving h hmem halive
  have halive' : (l.withHandles readers writers).alive = true := decide_eq_true hpos
  refine withLease_sound h hl ⟨rfl, rfl, ?_⟩ (owner_ne h hl harriving)
    (fun _ => h.written l hmem halive) hwriters ?_
  · rw [holds_of_alive halive', holds_of_alive halive]
  · intro hyes
    exact absurd (harriving ▸ hyes) Bool.false_ne_true

omit [DecidableEq Path] in
theorem count_standing (h : Sound s) {write : Root × Path} (hwrite : write ∈ s.left) :
    0 < (s.pins.count write.1).of .durable := by
  have hleft : LeftUnder s write.1 := ⟨write, hwrite, rfl⟩
  rw [h.counts, State.standing, if_pos hleft]
  exact Nat.succ_pos _

omit [DecidableEq Path] in
theorem snapshot_sound {owner : Option ℕ} (h : Sound s)
    (howner : ∀ i ∈ owner, ∃ l ∈ s.leases[i]?, l.arriving = true) :
    Sound { s with flight := some ⟨s.pins.durableRoots, owner⟩ } := by
  refine ⟨h.counts, fun l hl halive hdurable => ⟨(h.written l hl halive hdurable).1, ?_⟩,
    fun write hwrite => ⟨(h.leftWritten write hwrite).1, ?_⟩, ?_, h.writers, h.arriving⟩
  · rintro flight ⟨⟩
    rw [PinsIndex.mem_durableRoots, ← hdurable]
    exact count_pos h hl (holds_of_alive halive)
  · rintro flight ⟨⟩
    rw [PinsIndex.mem_durableRoots]
    exact count_standing h hwrite
  · rintro flight ⟨⟩ i hi
    obtain ⟨l, hl, harriving⟩ := howner i hi
    have hmem : l ∈ s.leases := List.mem_of_getElem? hl
    refine ⟨l, hl, harriving, ?_⟩
    rw [PinsIndex.mem_durableRoots, ← (h.arriving l hmem harriving).1]
    exact count_pos h hmem (by simp [Lease.holds, harriving])

omit [DecidableEq Path] in
/-- Whatever the write does, the file keeps what is recorded. -/
theorem landed_sound {flight : Flight Root} (ok : Bool) (h : Sound s)
    (hflight : s.flight = some flight) :
    Sound (s.landed flight ok) := by
  have hkeep {root : Root} (hroot : Recorded s root) : Recorded (s.landed flight ok) root := by
    refine ⟨?_, fun _ hnone => absurd hnone (by simp [State.landed])⟩
    rw [State.landed]
    split
    · exact hroot.2 flight hflight
    · exact hroot.1
  refine ⟨h.counts, fun l hl halive hdurable => hkeep (h.written l hl halive hdurable),
    fun write hwrite => hkeep (h.leftWritten write hwrite), ?_, h.writers, h.arriving⟩
  intro _ hnone
  cases hnone

theorem leftUnder_finish (hlast : NotLast s root path) (root' : Root) :
    LeftUnder (s.finish root path) root' ↔ LeftUnder s root' := by
  simp only [LeftUnder, State.finish, List.mem_filter, decide_eq_true_eq]
  constructor
  · rintro ⟨write, ⟨hmem, _⟩, heq⟩
    exact ⟨write, hmem, heq⟩
  · rintro ⟨write, hmem, heq⟩
    by_cases hthis : write = (root, path)
    · -- another write of the same root is still left
      rcases hlast with hnot | ⟨other, hother, hroot, hne⟩
      · exact absurd (hthis ▸ hmem) hnot
      · refine ⟨other, ⟨hother, fun hpair => hne (congrArg Prod.snd hpair)⟩, ?_⟩
        rw [hroot, ← heq, hthis]
    · exact ⟨write, ⟨hmem, hthis⟩, heq⟩

omit [DecidableEq Path] in
theorem standing_congr {t : State Root Path} (h : LeftUnder t root ↔ LeftUnder s root) :
    t.standing root d = s.standing root d := by
  cases d with
  | durable => simp only [State.standing, h]
  | «local» => rfl

theorem finish_sound (h : Sound s) (hlast : NotLast s root path) : Sound (s.finish root path) := by
  refine ⟨fun root' d => ?_, h.written, fun write hwrite => ?_, h.owner, h.writers, h.arriving⟩
  · rw [standing_congr (leftUnder_finish hlast root')]
    exact h.counts root' d
  · exact h.leftWritten write (List.mem_of_mem_filter hwrite)

omit [DecidableEq Path] in
theorem release_left : (s.release i l').left = s.left := by
  rw [State.release]
  split <;> rfl

omit [DecidableEq Path] in
variable (root d) in
theorem holdsOn_iff_of (hholds : l.holds = true) :
    l.holdsOn root d = true ↔ root = l.root ∧ d = l.durability := by
  rw [holdsOn_iff, eq_comm (a := root), eq_comm (a := d)]
  exact and_iff_right hholds

omit [DecidableEq Path] in
theorem release_sound {readers writers : ℕ} (h : Sound s) (hl : s.leases[i]? = some l)
    (halive : l.alive = true) (hless : writers ≤ l.writers) :
    Sound (s.release i (l.withHandles readers writers)) := by
  have hmem : l ∈ s.leases := List.mem_of_getElem? hl
  have harriving := not_arriving h hmem halive
  have hwriters : 0 < writers → l.durability = .durable := fun hpos =>
    h.writers l hmem (by omega)
  rw [State.release]
  split
  · rename_i hkeeps
    exact handles_sound h hl halive (of_decide_eq_true hkeeps) hwriters
  · rename_i hgone
    refine replace_sound h (fun root d => ?_) (owner_ne h hl harriving)
      (fun _ => h.written l hmem halive) hwriters ?_
    · have hheld := held_withLease (l.withHandles readers writers) root d hl
      have hoff : ¬ (l.withHandles readers writers).holdsOn root d = true := by
        rw [holdsOn_iff, Lease.holds, Lease.withHandles, harriving, Bool.false_or]
        exact fun hyes => hgone hyes.1
      have hon := holdsOn_iff_of root d (holds_of_alive halive)
      rw [if_neg hoff] at hheld
      change ((s.pins.remove l.root l.durability).1.count root).of d = _
      rw [PinsIndex.count_remove]
      by_cases hr : root = l.root
      · subst hr
        rw [if_pos rfl, PinCounts.unpin_of, h.counts]
        by_cases hd : d = l.durability
        · rw [if_pos (hon.mpr ⟨rfl, hd⟩)] at hheld
          rw [if_pos hd]
          omega
        · rw [if_neg fun hyes => hd (hon.mp hyes).2] at hheld
          rw [if_neg hd]
          omega
      · rw [if_neg fun hyes => hr (hon.mp hyes).1] at hheld
        rw [if_neg hr, h.counts]
        omega
    · intro hyes
      exact absurd (harriving ▸ hyes) Bool.false_ne_true

omit [DecidableEq Path] in
theorem acquire_sound (h : Sound s) (hlimit : (s.pins.count l.root).of l.durability < maxCount)
    (hholds : l.holds = true)
    (hwritten : l.alive = true → l.durability = .durable → Recorded s l.root)
    (hwriters : 0 < l.writers → l.durability = .durable)
    (harriving : l.arriving = true → l.durability = .durable ∧ l.readers = 0 ∧ l.writers = 0) :
    Sound { s with pins := (s.pins.add l.root l.durability).1, leases := s.leases ++ [l] } := by
  refine ⟨fun root d => ?_, fun k hk => ?_, h.leftWritten, fun flight hflight j hj => ?_,
    fun k hk => ?_, fun k hk => ?_⟩
  · have hon := holdsOn_iff_of root d hholds
    have hheld : (s.leases ++ [l]).countP (fun l => l.holdsOn root d) =
        s.held root d + if l.holdsOn root d then 1 else 0 := by
      rw [List.countP_append, List.countP_singleton, State.held]
    rw [State.held, hheld, PinsIndex.count_add]
    by_cases hr : root = l.root
    · subst hr
      rw [if_pos rfl, PinCounts.pin_of hlimit, h.counts]
      by_cases hd : d = l.durability
      · rw [if_pos hd, if_pos (hon.mpr ⟨rfl, hd⟩), Nat.add_right_comm]
        rfl
      · rw [if_neg hd, if_neg fun hyes => hd (hon.mp hyes).2]
        rfl
    · rw [if_neg hr, if_neg fun hyes => hr (hon.mp hyes).1, h.counts]
      rfl
  · rcases List.mem_append.mp hk with hk | hk
    · exact h.written k hk
    · rw [List.mem_singleton.mp hk]
      exact hwritten
  · obtain ⟨k, hk, hrest⟩ := h.owner flight hflight j hj
    exact ⟨k, List.getElem?_append_left (List.getElem?_eq_some_iff.mp hk).1 ▸ hk, hrest⟩
  · rcases List.mem_append.mp hk with hk | hk
    · exact h.writers k hk
    · rw [List.mem_singleton.mp hk]
      exact hwriters
  · rcases List.mem_append.mp hk with hk | hk
    · exact h.arriving k hk
    · rw [List.mem_singleton.mp hk]
      exact harriving

theorem deleteAsset_sound (h : Sound s) (hcare : Careful s (.deleteAsset root)) :
    Sound (next s (.deleteAsset root)) := by
  have hleft (root' : Root) :
      LeftUnder (next s (.deleteAsset root)) root' ↔ LeftUnder s root' ∧ root' ≠ root := by
    simp only [LeftUnder, next, List.mem_filter, decide_eq_true_eq]
    constructor
    · rintro ⟨write, ⟨hmem, hne⟩, heq⟩
      exact ⟨⟨write, hmem, heq⟩, heq ▸ hne⟩
    · rintro ⟨⟨write, hmem, heq⟩, hne⟩
      exact ⟨write, ⟨hmem, heq ▸ hne⟩, heq⟩
  refine ⟨fun root' d => ?_, h.written, fun write hwrite => ?_, h.owner, h.writers, h.arriving⟩
  · change ((s.pins.remove root .durable).1.count root').of d = s.held root' d + _
    rw [PinsIndex.count_remove]
    by_cases hr : root' = root
    · subst hr
      have hnone : ¬ LeftUnder (next s (.deleteAsset root')) root' := fun hyes =>
        ((hleft root').mp hyes).2 rfl
      rw [if_pos rfl, PinCounts.unpin_of, standing_of_not hnone, h.counts]
      cases d with
      | «local» => exact if_neg nofun
      | durable =>
        rw [if_pos rfl]
        rcases hcare with hyes | hfree
        · rw [State.standing, if_pos hyes]
          rfl
        · rw [held_zero hfree, State.standing]
          split <;> rfl
    · have hsame : LeftUnder (next s (.deleteAsset root)) root' ↔ LeftUnder s root' := by
        rw [hleft]
        exact and_iff_left hr
      rw [if_neg hr, standing_congr hsame]
      exact h.counts root' d
  · exact h.leftWritten write (List.mem_of_mem_filter hwrite)

theorem crash_sound (h : Sound s) (hcare : Careful s .crash) : Sound (next s .crash) := by
  have hleft (root : Root) : LeftUnder (next s .crash) root ↔ root ∈ s.file := by
    simp only [LeftUnder, next, List.mem_append, List.mem_map, List.mem_filter, decide_eq_true_eq]
    constructor
    · rintro ⟨write, hleft | ⟨l, ⟨hl, hpos⟩, rfl⟩, rfl⟩
      · exact (h.leftWritten write hleft).1
      · exact ((sound_pinned h).written l hl hpos)
    · intro hfile
      rcases hcare root hfile with ⟨l, hl, hroot, hpos⟩ | ⟨write, hmem, heq⟩
      · exact ⟨(l.root, l.path), .inr ⟨l, ⟨hl, hpos⟩, rfl⟩, hroot⟩
      · exact ⟨write, .inl hmem, heq⟩
  refine ⟨fun root d => ?_, fun _ hnone => absurd hnone List.not_mem_nil, fun write hwrite => ?_,
    fun _ hnone => ?_, fun _ hnone => absurd hnone List.not_mem_nil,
    fun _ hnone => absurd hnone List.not_mem_nil⟩
  · change ((PinsIndex.hydrate s.file).count root).of d = 0 + _
    rw [PinsIndex.count_hydrate, Nat.zero_add]
    cases d with
    | durable =>
      simp only [State.standing, hleft]
      split <;> rfl
    | «local» =>
      split <;> rfl
  · exact ⟨(hleft write.1).mp ⟨write, hwrite, rfl⟩, fun _ hnone => by cases hnone⟩
  · cases hnone

omit [DecidableEq Path] in
theorem onLease_eq {f : Lease Root Path → State Root Path} (hl : l ∈ s.leases[i]?) :
    s.onLease i f = f l := by
  rw [State.onLease, Option.mem_def.mp hl, Option.elim_some]

theorem write_sound {flight : Flight Root} {ok : Bool} (h : Sound s)
    (hflight : s.flight = some flight) (hcare : Careful s (.write ok)) :
    Sound (next s (.write ok)) := by
  have hlanded := landed_sound ok h hflight
  simp only [next, hflight]
  cases howner : flight.owner with
  | none => exact hlanded
  | some i =>
    obtain ⟨l, hl, harriving, hroot⟩ := h.owner flight hflight i howner
    have hok : ok = true := by
      rcases hcare with hok | hfree
      · exact hok
      · exact absurd (howner ▸ hfree flight hflight) (by simp)
    subst hok
    have hl' : l ∈ (s.landed flight true).leases[i]? := hl
    simp only [onLease_eq hl', if_true]
    obtain ⟨hdurable, hreaders, _⟩ := h.arriving l (List.mem_of_getElem? hl) harriving
    refine withLease_sound hlanded hl ⟨rfl, rfl, ?_⟩ (fun _ hnone => by cases hnone)
      (fun _ _ => ⟨hroot, fun _ hnone => by cases hnone⟩) (fun _ => hdurable) nofun
    rw [Lease.holds, Lease.holds, harriving, Bool.true_or]
    simp [Lease.alive]

theorem pinWriter_sound (h : Sound s) (hcare : Careful s (.pinWriter root path)) :
    Sound (next s (.pinWriter root path)) := by
  obtain ⟨hlimit, hrecorded⟩ := hcare
  have hadded : (s.pins.add root .durable).2.2 = true ↔ (s.pins.count root).of .durable = 0 := by
    simp only [PinsIndex.add, PinCounts.pin, PinCounts.of, decide_eq_true_eq] at hlimit ⊢
    rw [Nat.min_eq_left hlimit]
    exact Nat.succ_inj
  cases hnew : (s.pins.add root .durable).2.2 with
  | true =>
    simp only [next, hnew]
    exact acquire_sound (l := ⟨root, path, .durable, true, 0, 0⟩) h hlimit rfl
      (fun halive => absurd halive Bool.false_ne_true) (fun hpos => absurd hpos (Nat.lt_irrefl 0))
      (fun _ => ⟨rfl, rfl, rfl⟩)
  | false =>
    have hin : Recorded s root := hrecorded.resolve_left fun hzero => by
      rw [hadded.mpr hzero] at hnew
      cases hnew
    simp only [next, hnew]
    exact acquire_sound (l := ⟨root, path, .durable, false, 0, 1⟩) h hlimit rfl (fun _ _ => hin)
      (fun _ => rfl) (fun harriving => absurd harriving Bool.false_ne_true)

theorem sound_step (s : State Root Path) (a : Action Root Path) (h : Sound s)
    (henabled : machine.Enabled s a) (hcare : Careful s a) : Sound (machine.next s a) := by
  have halive {l : Lease Root Path} (hpos : 0 < l.readers ∨ 0 < l.writers) : l.alive = true :=
    decide_eq_true (by omega)
  have hown {i : ℕ} {l : Lease Root Path} (hl : l ∈ s.leases[i]?) := h.writers l
    (List.mem_of_getElem? hl)
  cases a with
  | openReader root path =>
    exact acquire_sound (l := ⟨root, path, .local, false, 1, 0⟩) h hcare rfl nofun nofun nofun
  | pinWriter root path => exact pinWriter_sound h hcare
  | snapshot owner => exact snapshot_sound h henabled.2
  | write ok =>
    obtain ⟨flight, hflight⟩ := Option.isSome_iff_exists.mp henabled
    exact write_sound h hflight hcare
  | clone i =>
    obtain ⟨l, hl, hpos⟩ := henabled
    rw [show machine.next s (.clone i) = _ from onLease_eq hl]
    exact handles_sound h hl (halive (.inl hpos)) (by omega) (hown hl)
  | view i =>
    obtain ⟨l, hl, hpos⟩ := henabled
    rw [show machine.next s (.view i) = _ from onLease_eq hl]
    exact handles_sound h hl (halive (.inr hpos)) (by omega) (hown hl)
  | commit i =>
    obtain ⟨l, hl, hpos⟩ := henabled
    rw [show machine.next s (.commit i) = _ from onLease_eq hl]
    refine finish_sound (handles_sound h hl (halive (.inr hpos)) (by omega) ?_) (hcare l hl)
    exact fun _ => hown hl hpos
  | reactivate i =>
    obtain ⟨l, hl, hpos⟩ := henabled
    rw [show machine.next s (.reactivate i) = _ from onLease_eq hl]
    exact handles_sound h hl (halive (.inl hpos)) (by omega) (fun _ => hcare l hl)
  | dropReader i =>
    obtain ⟨l, hl, hpos⟩ := henabled
    rw [show machine.next s (.dropReader i) = _ from onLease_eq hl]
    exact release_sound h hl (halive (.inl hpos)) (Nat.le_refl _)
  | dropWriter i swept =>
    obtain ⟨l, hl, hpos⟩ := henabled
    rw [show machine.next s (.dropWriter i swept) = _ from onLease_eq hl]
    have hreleased : Sound (s.release i (l.withHandles l.readers (l.writers - 1))) :=
      release_sound h hl (halive (.inr hpos)) (Nat.sub_le _ 1)
    cases swept with
    | false => exact hreleased
    | true =>
      apply finish_sound hreleased
      rw [NotLast, release_left]
      exact hcare rfl l hl
  | deleteAsset root => exact deleteAsset_sound h hcare
  | crash => exact crash_sound h hcare

omit [DecidableEq Path] in
theorem start_sound : Sound (start : State Root Path) := by
  refine ⟨fun root d => ?_, ?_, ?_, ?_, ?_, ?_⟩
  · rw [start, PinsIndex.count_empty]
    cases d <;> rfl
  all_goals exact fun _ hnone => by cases hnone

/-- Every run of careful steps keeps what pins promise in each of its states. -/
theorem careful_runs_pinned (as : List (Action Root Path)) (hvalid : machine.ValidTrace start as)
    (hcare : machine.Along Careful start as) : machine.Throughout Pinned start as := by
  have hsound := throughout_of_along sound_step start_sound hvalid hcare
  exact throughout_imp (fun _ h => sound_pinned h) hsound

/-- A reader comes and goes, and a writer's process dies before it commits; the next run takes the
resource up again, and deletes the asset once its own writer is gone. -/
def interrupted : List (Action ℕ ℕ) :=
  [.openReader 0 0, .pinWriter 1 0, .snapshot (some 1), .write true, .clone 0, .dropReader 0,
    .crash, .pinWriter 1 0, .view 0, .dropWriter 0 false, .dropReader 0, .deleteAsset 1]

theorem interrupted_run_pinned :
    machine.Throughout Pinned (start : State ℕ ℕ) interrupted :=
  careful_runs_pinned interrupted (by decide) (by decide)

def deletedUnder : List (Action ℕ ℕ) :=
  [.pinWriter 0 0, .snapshot (some 0), .write true, .deleteAsset 0]

/-- A committed resource is opened, and written again through its reader. -/
def rewritten : List (Action ℕ ℕ) := [.openReader 0 0, .reactivate 0]

/-- The process dies under a writer, and the next run writes the same resource to its end. -/
def takenUp : List (Action ℕ ℕ) :=
  [.pinWriter 0 0, .snapshot (some 0), .write true, .crash, .pinWriter 0 0, .commit 0,
    .dropReader 0]

/-- Careless runs break each promise. -/
theorem careless_runs_unpinned :
    (machine.ValidTrace start deletedUnder ∧ ∃ l ∈ (machine.runTrace start deletedUnder).leases,
      l.alive = true ∧ l.root ∉ (machine.runTrace start deletedUnder).pins.snapshot) ∧
    (machine.ValidTrace start rewritten ∧ ∃ l ∈ (machine.runTrace start rewritten).leases,
      0 < l.writers ∧ l.root ∉ (machine.runTrace start rewritten).file) ∧
    machine.ValidTrace start takenUp ∧
      (∀ l ∈ (machine.runTrace start takenUp).leases, l.holds = false) ∧
      (machine.runTrace start takenUp).left = [] ∧
      0 ∈ (machine.runTrace start takenUp).pins.snapshot := by
  decide

end PinLeases

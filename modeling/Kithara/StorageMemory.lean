import Kithara.RangeRuns
import Kithara.CheckedArithmetic
import Kithara.TransitionSystem

/-! The in-memory resource: a working buffer, the published snapshot of the last commit, the
availability set and the gated lifecycle. `granted` is the pool's answer to a growth request.
The driver keeps no validity window, so publication and writes never trim availability. -/
namespace StorageMemory

open RangeRuns CheckedArithmetic TransitionSystem

inductive StorageError where
  | cancelled
  | failed (reason : String)
  | invalidRange (start finish : ℕ)
  deriving DecidableEq, Repr

inductive WaitOutcome where
  | ready
  | eof
  | interrupted
  deriving DecidableEq, Repr

abbrev StorageResult := Except StorageError

structure MemState where
  buf : List UInt8
  len : ℕ
  deriving DecidableEq

structure MemDriver where
  committed : Option (List UInt8)
  state : MemState
  deriving DecidableEq

def ensureLen (buf : List UInt8) (minLen : ℕ) : List UInt8 :=
  buf ++ List.replicate (minLen - buf.length) 0

def readSlice (data : List UInt8) (offset size : ℕ) : List UInt8 :=
  if offset ≥ data.length then []
  else (data.drop offset).take (min size (data.length - offset))

namespace MemDriver

/-- A buffer already released by an earlier commit leaves the driver as it is; an empty
prefix publishes no snapshot. -/
def commit (d : MemDriver) (finalLen : Option ℕ) : MemDriver :=
  let finish := min (finalLen.getD d.state.len) d.state.len
  if finish > d.state.buf.length then d
  else { committed := if finish = 0 then none else some (d.state.buf.take finish)
         state := { buf := [], len := finish } }

def committedLen (d : MemDriver) : Option ℕ := d.committed.map List.length

/-- Copies the snapshot back into the working buffer; the snapshot stays published. -/
def reactivate (d : MemDriver) (granted : Bool) : StorageResult MemDriver :=
  match d.committed with
  | none => .ok d
  | some snapshot =>
    if snapshot.length > d.state.buf.length ∧ granted = false then
      .error (.failed "byte budget exhausted")
    else .ok { d with state := { buf := snapshot ++ d.state.buf.drop snapshot.length
                                 len := snapshot.length } }

def readAt (d : MemDriver) (offset size : ℕ) : List UInt8 :=
  let logicalEnd := min d.state.len d.state.buf.length
  if offset < logicalEnd then (d.state.buf.drop offset).take (min size (logicalEnd - offset))
  else match d.committed with
    | some snapshot => readSlice snapshot offset size
    | none => []

def readCommitted (d : MemDriver) (offset size : ℕ) : Option (List UInt8) :=
  d.committed.map fun data => readSlice data offset size

def storageLen (d : MemDriver) : ℕ := d.state.len

def writeAt (d : MemDriver) (offset : ℕ) (data : List UInt8) (committed granted : Bool) :
    StorageResult MemDriver :=
  if committed then .error (.failed "cannot write to committed resource")
  else
    let finish := offset + data.length
    if finish > d.state.buf.length ∧ granted = false then .error (.failed "byte budget exhausted")
    else
      let buf := ensureLen d.state.buf finish
      .ok { d with state := { buf := buf.take offset ++ data ++ buf.drop finish
                              len := max d.state.len finish } }

end MemDriver

structure CommonState where
  failed : Option String
  finalLen : Option ℕ
  committed : Bool
  deriving DecidableEq

structure ResourceCore where
  available : RangeSet ℕ
  committed : Bool
  cancelled : Bool
  gate : CommonState
  driver : MemDriver
  deriving DecidableEq

def rangeCoveredBy (available : RangeSet ℕ) (a b : ℕ) : Bool :=
  decide (b ≤ a) || (available.gaps a b).isEmpty

namespace ResourceCore

/-- Opens with committed initial data, or empty with reserved capacity. -/
def openWith (initialData : Option (List UInt8)) (capacity : ℕ) (granted : Bool) :
    StorageResult ResourceCore :=
  match initialData with
  | some data =>
    if data.length > 0 ∧ granted = false then .error (.failed "byte budget exhausted")
    else .ok {
      available := RangeSet.empty.insert 0 data.length
      committed := true
      cancelled := false
      gate := { failed := none, finalLen := some data.length, committed := true }
      driver := { committed := if data.isEmpty then none else some data
                  state := { buf := data, len := data.length } } }
  | none =>
    if capacity > 0 ∧ granted = false then .error (.failed "byte budget exhausted")
    else .ok {
      available := RangeSet.empty
      committed := false
      cancelled := false
      gate := { failed := none, finalLen := none, committed := false }
      driver := { committed := none, state := { buf := ensureLen [] capacity, len := 0 } } }

def checkHealth (s : ResourceCore) : Option StorageError :=
  if s.cancelled then some .cancelled else s.gate.failed.map .failed

def publishCommit (s : ResourceCore) (finalLen : Option ℕ) : ResourceCore :=
  { s with
    committed := true
    gate := { s.gate with committed := true, finalLen }
    available := match finalLen with
      | some len => if len > 0 then s.available.insert 0 len else s.available
      | none => s.available }

def commit (s : ResourceCore) (finalLen : Option ℕ) : StorageResult ResourceCore :=
  match s.checkHealth with
  | some err => .error err
  | none => .ok ({ s with driver := s.driver.commit finalLen }.publishCommit finalLen)

def reactivate (s : ResourceCore) (granted : Bool) : StorageResult ResourceCore :=
  if s.cancelled then .error .cancelled
  else (s.driver.reactivate granted).map fun driver =>
    { s with driver, committed := false
             gate := { failed := none, finalLen := none, committed := false } }

def writeAt (s : ResourceCore) (offset : ℕ) (data : List UInt8) (granted : Bool) :
    StorageResult ResourceCore :=
  if data.isEmpty then .ok s
  else match s.checkHealth with
    | some err => .error err
    | none =>
      match checkedAdd 64 offset data.length with
      | none => .error (.invalidRange offset (2 ^ 64 - 1))
      | some finish =>
        (s.driver.writeAt offset data s.gate.committed granted).map fun driver =>
          { s with driver, available := s.available.insert offset finish }

def containsRange (s : ResourceCore) (a b : ℕ) : Bool :=
  if b ≤ a then true
  else match s.driver.committedLen with
    | some committedLen => decide (b ≤ committedLen)
    | none => rangeCoveredBy s.available a b

/-- One pass of the wait loop; no outcome is where the loop parks on the gate. -/
def waitRange (s : ResourceCore) (a b : ℕ) : StorageResult (Option WaitOutcome) :=
  if a > b then .error (.invalidRange a b)
  else if b ≤ a then .ok (some .ready)
  else if s.cancelled then .error .cancelled
  else match s.gate.failed with
    | some reason => .error (.failed reason)
    | none =>
      if rangeCoveredBy s.available a b then .ok (some .ready)
      else if s.gate.committed then
        if a ≥ s.gate.finalLen.getD 0 then .ok (some .eof) else .ok (some .ready)
      else .ok none

def nextGap (s : ResourceCore) (start limit : ℕ) : Option (ℕ × ℕ) :=
  let upper := min limit (s.gate.finalLen.getD limit)
  if start ≥ upper then none
  else (s.available.gaps start upper).head?.map fun gap => (gap.1, min gap.2 upper)

def len (s : ResourceCore) : Option ℕ :=
  if s.committed then s.driver.committedLen.or s.gate.finalLen else s.gate.finalLen

def readAt (s : ResourceCore) (offset size : ℕ) : StorageResult (List UInt8) :=
  if size = 0 then .ok []
  else
    let slow : StorageResult (List UInt8) :=
      match s.checkHealth with
      | some err => .error err
      | none =>
        let effectiveLen := min (s.gate.finalLen.getD s.driver.storageLen) s.driver.storageLen
        if offset ≥ effectiveLen then .ok []
        else .ok (s.driver.readAt offset (min size (effectiveLen - offset)))
    match s.driver.committedLen with
    | none => slow
    | some committedLen =>
      if s.cancelled then .error .cancelled
      else if offset ≥ committedLen then .ok []
      else match s.driver.readCommitted offset (min size (committedLen - offset)) with
        | some bytes => .ok bytes
        | none => slow

end ResourceCore

inductive Action where
  | write (offset : ℕ) (data : List UInt8) (granted : Bool)
  | commit (finalLen : ℕ)
  | reactivate (granted : Bool)
  deriving DecidableEq

def next (s : ResourceCore) (a : Action) : ResourceCore :=
  let result := match a with
    | .write offset data granted => s.writeAt offset data granted
    | .commit finalLen => s.commit (some finalLen)
    | .reactivate granted => s.reactivate granted
  match result with
  | .ok t => t
  | .error _ => s

/-- Any sequence of writes, commits with a final length, and reactivations. -/
def resource : Machine ResourceCore Action where
  Enabled _ _ := True
  next := next

/-- The same, committing no more than the bytes written. -/
def boundedResource : Machine ResourceCore Action where
  Enabled s a := ∀ n, a = .commit n → n ≤ s.driver.storageLen
  next := next

structure Invariant (s : ResourceCore) : Prop where
  uncancelled : s.cancelled = false
  unfailed : s.gate.failed = none
  flags : s.committed = s.gate.committed
  active : s.gate.committed = false → s.gate.finalLen = none ∧
    s.driver.state.len ≤ s.driver.state.buf.length
  published : ∀ v, s.driver.committed = some v → 0 < v.length ∧
    ∀ x, x < v.length → x ∈ s.available
  snapshot : s.gate.committed = true → s.driver.state.len = (s.driver.committed.getD []).length
  working : s.driver.state.len ≤ s.driver.state.buf.length ∨ s.driver.state.buf.length = 0

theorem rangeCoveredBy_iff {available : RangeSet ℕ} {a b : ℕ} :
    rangeCoveredBy available a b = true ↔ ∀ x, a ≤ x → x < b → x ∈ available := by
  rw [rangeCoveredBy, Bool.or_eq_true, decide_eq_true_eq, List.isEmpty_iff, RangeSet.gaps_eq_nil]
  constructor
  · rintro (h | h)
    · intro x h1 h2
      omega
    · exact h
  · exact Or.inr

theorem ensureLen_length (buf : List UInt8) (n : ℕ) :
    (ensureLen buf n).length = max buf.length n := by
  rw [ensureLen, List.length_append, List.length_replicate]
  omega

theorem readSlice_length (data : List UInt8) (offset size : ℕ) :
    (readSlice data offset size).length = min size (data.length - offset) := by
  simp only [readSlice]
  split
  · rw [List.length_nil]
    omega
  · rw [List.length_take, List.length_drop]
    omega

/-- An accepted write: the resource is active, the range fits a word, the pool grants it. -/
structure Accepts (s : ResourceCore) (offset : ℕ) (data : List UInt8) (granted : Bool) :
    Prop where
  nonempty : data ≠ []
  active : s.gate.committed = false
  fits : offset + data.length < 2 ^ 64
  room : offset + data.length ≤ s.driver.state.buf.length ∨ granted = true

def written (s : ResourceCore) (offset : ℕ) (data : List UInt8) : ResourceCore :=
  let finish := offset + data.length
  let buf := ensureLen s.driver.state.buf finish
  { s with
    available := s.available.insert offset finish
    driver := { s.driver with state := { buf := buf.take offset ++ data ++ buf.drop finish
                                         len := max s.driver.state.len finish } } }

theorem next_write {s : ResourceCore} (h : Invariant s) (offset : ℕ) (data : List UInt8)
    (granted : Bool) :
    (Accepts s offset data granted ∧ next s (.write offset data granted) = written s offset data) ∨
      (¬ Accepts s offset data granted ∧ next s (.write offset data granted) = s) := by
  have hhealth : s.checkHealth = none := by
    simp [ResourceCore.checkHealth, h.uncancelled, h.unfailed]
  by_cases hne : data = []
  · exact Or.inr ⟨fun ha => ha.nonempty hne, by simp [next, ResourceCore.writeAt, hne]⟩
  have hempty : data.isEmpty = false := by simpa using hne
  by_cases hfits : offset + data.length < 2 ^ 64
  · have hadd : checkedAdd 64 offset data.length = some (offset + data.length) := if_pos hfits
    cases hc : s.gate.committed with
    | true =>
      refine Or.inr ⟨fun ha => ?_, ?_⟩
      · exact absurd (hc.symm.trans ha.active) (by decide)
      · simp [next, ResourceCore.writeAt, hempty, hhealth, hadd, MemDriver.writeAt, hc, Except.map]
    | false =>
      by_cases hroom : offset + data.length ≤ s.driver.state.buf.length ∨ granted = true
      · refine Or.inl ⟨⟨hne, hc, hfits, hroom⟩, ?_⟩
        have hno : ¬ (offset + data.length > s.driver.state.buf.length ∧ granted = false) := by
          rintro ⟨hgt, hg⟩
          rcases hroom with hle | ht
          · omega
          · exact absurd (hg.symm.trans ht) (by decide)
        simp only [next, ResourceCore.writeAt, hempty, hhealth, hadd, MemDriver.writeAt, hc,
          if_neg hno, Except.map, written]
        rfl
      · refine Or.inr ⟨fun ha => hroom ha.room, ?_⟩
        obtain ⟨hle, hg⟩ := not_or.mp hroom
        have hyes : offset + data.length > s.driver.state.buf.length ∧ granted = false :=
          ⟨by omega, by simpa using hg⟩
        simp only [next, ResourceCore.writeAt, hempty, hhealth, hadd, MemDriver.writeAt, hc,
          if_pos hyes, Except.map]
        rfl
  · have hadd : checkedAdd 64 offset data.length = none := if_neg hfits
    refine Or.inr ⟨fun ha => hfits ha.fits, ?_⟩
    simp [next, ResourceCore.writeAt, hempty, hhealth, hadd]

theorem next_commit {s : ResourceCore} (h : Invariant s) (n : ℕ) :
    next s (.commit n) = { s with driver := s.driver.commit (some n) }.publishCommit (some n) := by
  have hhealth : s.checkHealth = none := by
    simp [ResourceCore.checkHealth, h.uncancelled, h.unfailed]
  simp [next, ResourceCore.commit, hhealth]

/-- A reactivation keeps snapshot and availability; refused growth changes nothing. -/
theorem next_reactivate {s : ResourceCore} (h : Invariant s) (granted : Bool) :
    next s (.reactivate granted) = s ∨
      ((next s (.reactivate granted)).available = s.available ∧
        (next s (.reactivate granted)).driver.committed = s.driver.committed ∧
        (next s (.reactivate granted)).gate = ⟨none, none, false⟩ ∧
        (next s (.reactivate granted)).committed = false ∧
        (next s (.reactivate granted)).cancelled = false ∧
        match s.driver.committed with
        | none => (next s (.reactivate granted)).driver.state = s.driver.state
        | some v => (next s (.reactivate granted)).driver.state.len = v.length ∧
          v.length ≤ (next s (.reactivate granted)).driver.state.buf.length) := by
  have hc := h.uncancelled
  cases hs : s.driver.committed with
  | none =>
    right
    simp [next, ResourceCore.reactivate, hc, MemDriver.reactivate, hs, Except.map]
  | some v =>
    by_cases hg : v.length > s.driver.state.buf.length ∧ granted = false
    · left
      simp [next, ResourceCore.reactivate, hc, MemDriver.reactivate, hs, hg, Except.map]
    · right
      simp [next, ResourceCore.reactivate, hc, MemDriver.reactivate, hs, hg, Except.map]

theorem mem_publish {available : RangeSet ℕ} {n x : ℕ} :
    x ∈ (if n > 0 then available.insert 0 n else available) ↔ x < n ∨ x ∈ available := by
  split
  · rw [RangeSet.mem_insert]
    simp
  · next hz =>
    have : n = 0 := by omega
    simp [this]

end StorageMemory

import Kithara.KeyedTables
import Kithara.RangeRuns
import Kithara.TransitionSystem
import Mathlib.Logic.Function.Basic

/-! The availability of a store's resources, and the manifest that outlives the process: files are
renamed into place unforced, and a flush forces those committed since before the manifest names
them. A file is its bytes, and whether they were forced onto the medium. -/
namespace AvailabilityManifest

open KeyedSums (Table)
open KeyedTables RangeRuns TransitionSystem

structure Availability where
  finalLen : Option ℕ
  ranges : RangeSet ℕ
  committed : Bool
  deriving DecidableEq

namespace Availability

def new : Availability := ⟨none, .empty, false⟩

def contains (a : Availability) (first last : ℕ) : Bool :=
  first ≥ last || (a.ranges.gaps first last).isEmpty

def insert (a : Availability) (first last : ℕ) : Availability × Bool :=
  if first ≥ last || a.contains first last then (a, false)
  else ({ a with ranges := a.ranges.insert first last }, true)

def whole (finalLen : ℕ) : RangeSet ℕ :=
  if finalLen > 0 then RangeSet.empty.insert 0 finalLen else .empty

def markCommitted (a : Availability) (finalLen : ℕ) : Availability × Bool :=
  let ranges := whole finalLen
  if a.committed && a.finalLen = some finalLen && a.ranges = ranges then (a, false)
  else (⟨some finalLen, ranges, true⟩, true)

end Availability

structure ResourceAvailabilityFile where
  ranges : List (ℕ × ℕ)
  finalLen : Option ℕ
  isCommitted : Bool
  deriving DecidableEq

structure File (β : Type*) where
  bytes : β
  synced : Bool

variable (Root Rel Path Bytes : Type*)

abbrev Key := Root × Rel

structure Layout where
  path : Key Root Rel → Path
  /-- The path lies under the directory of the root. -/
  under : Root → Path → Bool
  path_under : ∀ key, under key.1 (path key) = true

variable {Root Rel Path Bytes} in
structure Codec (M Bytes : Type*) where
  encode : M → Bytes
  decode : Bytes → Option M
  decode_encode : ∀ m, decode (encode m) = some m

abbrev AvailabilityFile := Table (Key Root Rel) ResourceAvailabilityFile

structure State where
  files : Path → Option (File (List UInt8))
  assets : Table (Key Root Rel) Availability
  pendingDurability : Table Path (Key Root Rel)
  /-- The manifest's file. -/
  manifest : Option (File Bytes)
  /-- Files renamed into place since the manifest was last written. -/
  rewritten : List Path

/-- What the file system answers while a file is forced. -/
inductive Barrier where
  | forced
  /-- The file is not opened, or not forced. -/
  | refused
  /-- It is forced, and not compared with what was selected. -/
  | unread
  deriving DecidableEq

inductive Action where
  /-- A file is renamed into place, and its length is recorded when it is given. -/
  | commit (key : Key Root Rel) (bytes : List UInt8) (finalLen : Option ℕ)
  /-- The same by a writer taken up from an opened file. -/
  | rewrite (key : Key Root Rel) (bytes : List UInt8) (finalLen : Option ℕ)
  | openResource (key : Key Root Rel)
  | acquireResource (key : Key Root Rel)
  | write (key : Key Root Rel) (first last : ℕ)
  | remove (key : Key Root Rel)
  | deleteAsset (root : Root)
  /-- A flush forces files in some order, and then writes the manifest or fails to. -/
  | flush (durable : Bool) (queued : List (Sigma fun _ : Path => Key Root Rel))
      (barrier : Path → Barrier) (writes : Bool)

variable {Root Rel Path Bytes} [DecidableEq Root] [DecidableEq Rel] [DecidableEq Path]

def start : State Root Rel Path Bytes where
  files _ := none
  assets := ∅
  pendingDurability := ∅
  manifest := none
  rewritten := []

namespace State

variable (s : State Root Rel Path Bytes)

/-- Changes the entry of a resource, a new one if it has none. -/
def update (key : Key Root Rel) (f : Availability → Availability) : State Root Rel Path Bytes :=
  { s with assets := s.assets.insert key (f ((s.assets.lookup key).getD .new)) }

def recordCommit (key : Key Root Rel) (finalLen : ℕ) : State Root Rel Path Bytes :=
  s.update key fun a => (a.markCommitted finalLen).1

/-- The obligation is queued before the commit shows. -/
def recordFileCommit (key : Key Root Rel) (path : Path) (finalLen : ℕ) :
    State Root Rel Path Bytes :=
  { s with pendingDurability := orInsert s.pendingDurability path key }.recordCommit key finalLen

def recordWrite (key : Key Root Rel) (first last : ℕ) : State Root Rel Path Bytes :=
  if first ≥ last then s else s.update key fun a => (a.insert first last).1

/-- A file is renamed into place, not yet forced. -/
def published (path : Path) (bytes : List UInt8) : State Root Rel Path Bytes :=
  { s with
    files := Function.update s.files path (some ⟨bytes, false⟩)
    rewritten := path :: s.rewritten }

/-- A file that is opened counts as committed at the length it has. -/
def openStorageResource (key : Key Root Rel) (path : Path) : State Root Rel Path Bytes :=
  match s.files path with
  | some file => s.recordCommit key file.bytes.length
  | none => s

def finalLen (key : Key Root Rel) : Option ℕ :=
  (s.assets.lookup key).bind Availability.finalLen

def isConfirmed (key : Key Root Rel) (path : Path) : Bool :=
  (s.finalLen key).isSome && (s.files path).any fun file => 0 < file.bytes.length

end State

def record (a : Availability) : Option ResourceAvailabilityFile :=
  if a.committed then some ⟨a.ranges.runs, a.finalLen, a.committed⟩ else none

def snapshotAggregate (s : State Root Rel Path Bytes) : AvailabilityFile Root Rel :=
  mapValues record s.assets

def extentMatches (selected : Option ResourceAvailabilityFile) (len : ℕ) : Bool :=
  selected.all fun r => r.finalLen = some len && r.ranges.all fun range => range.2 ≤ len

/-- Forces the files one by one, up to the first that fails. -/
def barrierFiles (present : Key Root Rel → Bool) (index : AvailabilityFile Root Rel)
    (barrier : Path → Barrier) : List (Sigma fun _ : Path => Key Root Rel) →
    (Path → Option (File (List UInt8))) → (Path → Option (File (List UInt8))) × Bool
  | [], files => (files, true)
  | ⟨path, key⟩ :: queued, files =>
    let selected := index.lookup key
    match files path with
    | none =>
      -- a deletion that is over
      if selected.isNone && !present key then barrierFiles present index barrier queued files
      else (files, false)
    | some file => match barrier path with
      | .refused => (files, false)
      | .unread => (Function.update files path (some { file with synced := true }), false)
      | .forced =>
        let files := Function.update files path (some { file with synced := true })
        if extentMatches selected file.bytes.length then
          barrierFiles present index barrier queued files
        else (files, false)

/-- Detaches what is queued, and puts it back when a file fails. -/
def barrierPendingFiles (s : State Root Rel Path Bytes) (index : AvailabilityFile Root Rel)
    (queued : List (Sigma fun _ : Path => Key Root Rel)) (barrier : Path → Barrier) :
    State Root Rel Path Bytes × Bool :=
  let forced := barrierFiles (fun key => (s.assets.lookup key).isSome) index barrier queued s.files
  ({ s with
      files := forced.1
      pendingDurability :=
        if forced.2 then ∅ else queued.foldl (fun m e => orInsert m e.1 e.2) ∅ }, forced.2)

def writeAggregate (codec : Codec (AvailabilityFile Root Rel) Bytes) (s : State Root Rel Path Bytes)
    (index : AvailabilityFile Root Rel) (durable writes : Bool) :
    State Root Rel Path Bytes × Bool :=
  if writes then
    ({ s with manifest := some ⟨codec.encode index, durable⟩, rewritten := [] }, true)
  else (s, false)

def flushWithDurability (codec : Codec (AvailabilityFile Root Rel) Bytes)
    (s : State Root Rel Path Bytes) (durable : Bool)
    (queued : List (Sigma fun _ : Path => Key Root Rel)) (barrier : Path → Barrier)
    (writes : Bool) : State Root Rel Path Bytes × Bool :=
  let index := snapshotAggregate s
  let forced := barrierPendingFiles s index queued barrier
  if forced.2 then writeAggregate codec forced.1 index durable writes else (forced.1, false)

def hydrateEntry (r : ResourceAvailabilityFile) : Availability :=
  let a := r.ranges.foldl (fun (a : Availability) range => (a.insert range.1 range.2).1) .new
  match r.finalLen with
  | some finalLen => (a.markCommitted finalLen).1
  | none => { a with committed := r.isCommitted }

/-- What a new index reads back: nothing from a manifest that is missing or no archive. -/
def loadFrom (codec : Codec (AvailabilityFile Root Rel) Bytes) (manifest : Option (File Bytes)) :
    Table (Key Root Rel) Availability :=
  match manifest.bind fun file => codec.decode file.bytes with
  | none => ∅
  | some index => mapValues (fun r => some (hydrateEntry r)) index

section

variable (layout : Layout Root Rel Path) (codec : Codec (AvailabilityFile Root Rel) Bytes)

def next (s : State Root Rel Path Bytes) : Action Root Rel Path → State Root Rel Path Bytes
  | .commit key bytes finalLen =>
    let path := layout.path key
    let s := s.published path bytes
    match finalLen with
    | some finalLen => s.recordFileCommit key path finalLen
    | none => s
  | .rewrite key bytes finalLen =>
    let s := s.published (layout.path key) bytes
    match finalLen with
    | some finalLen => s.recordCommit key finalLen
    | none => s
  | .openResource key => s.openStorageResource key (layout.path key)
  | .acquireResource key =>
    let path := layout.path key
    if s.isConfirmed key path then s.openStorageResource key path
    -- an unconfirmed leftover is cleared and fetched again
    else { s with files := Function.update s.files path none }
  | .write key first last => s.recordWrite key first last
  | .remove key =>
    { s with
      files := Function.update s.files (layout.path key) none
      assets := s.assets.erase key }
  | .deleteAsset root =>
    { s with
      files := fun path => if layout.under root path then none else s.files path
      assets := KeyedSums.keep (fun key => key.1 ≠ root) s.assets }
  | .flush durable queued barrier writes =>
    (flushWithDurability codec s durable queued barrier writes).1

def Enabled (s : State Root Rel Path Bytes) : Action Root Rel Path → Prop
  | .flush _ queued _ _ => queued.Perm s.pendingDurability.entries
  | _ => True

instance (s : State Root Rel Path Bytes) :
    (a : Action Root Rel Path) → Decidable (Enabled s a)
  | .flush _ queued _ _ => inferInstanceAs (Decidable (queued.Perm s.pendingDurability.entries))
  | .commit _ _ _ | .rewrite _ _ _ | .openResource _ | .acquireResource _ | .write _ _ _
  | .remove _ | .deleteAsset _ => isTrue trivial

def machine : Machine (State Root Rel Path Bytes) (Action Root Rel Path) where
  Enabled := Enabled
  next := next layout codec

instance (s : State Root Rel Path Bytes) (a : Action Root Rel Path) :
    Decidable ((machine layout codec).Enabled s a) := inferInstanceAs (Decidable (Enabled s a))

end

end AvailabilityManifest

import Kithara.StorageMemory

/-! A writer of a memory-mapped file that becomes visible by one rename. What is written goes to
a temp file beside the canonical path; `commit` releases the mapping, trims, syncs and renames
the file and reopens it there, each of which may fail and after each of which the process may
die. `written` and `renamed` are kept only to say what was written and what was done. -/
namespace ChunkedCommit

open StorageMemory

structure FileData where
  bytes : List UInt8
  synced : Bool
  deriving DecidableEq

structure Disk where
  canonical : Option FileData
  tmp : Option FileData
  deriving DecidableEq

inductive Barrier where
  | inline
  | deferred
  deriving DecidableEq, Repr

inductive ResourceStatus where
  | failed
  | committed (finalLen : Option ℕ)
  | active
  deriving DecidableEq, Repr

/-- `stampOnDrop` is cleared for a writer whose refill another one owns. -/
structure Core where
  failed : Bool := false
  committed : Bool := false
  finalLen : Option ℕ := none
  stampOnDrop : Bool := true
  deriving DecidableEq, Repr

def Core.status (core : Core) : ResourceStatus :=
  if core.failed then .failed
  else if core.committed then .committed core.finalLen
  else .active

structure Options where
  barrier : Barrier
  initialLen : ℕ
  growthFactor : ℕ
  deriving DecidableEq, Repr

/-- `mapped` says that the driver holds a mapping of the temp file, `reopened` that the inner
was swapped for the one at the canonical path. -/
structure State where
  options : Options
  disk : Disk
  claimed : Bool
  mapped : Bool
  original : Core
  reopened : Option Core
  written : ℕ → UInt8
  renamed : Bool

def State.inner (s : State) : Core := s.reopened.getD s.original

def State.status (s : State) : ResourceStatus := s.inner.status

def State.setInner (s : State) (core : Core) : State :=
  if s.reopened.isSome then { s with reopened := some core } else { s with original := core }

/-- `open_with_barrier` once the claim was taken: the temp file starts empty, and the factory
maps it at its initial length. -/
def openWithBarrier (options : Options) (canonical : Option FileData) : State where
  options := options
  disk := ⟨canonical, some ⟨List.replicate options.initialLen 0, false⟩⟩
  claimed := true
  mapped := options.initialLen != 0
  original := {}
  reopened := none
  written := fun _ => 0
  renamed := false

structure Write where
  offset : ℕ
  data : List UInt8
  grows : Bool
  copies : Bool
  deriving DecidableEq, Repr

def Write.finish (w : Write) : ℕ := w.offset + w.data.length

/-- The file as the write finds it, created or grown where it has to be. -/
def grown (options : Options) (mapped : Bool) (bytes : List UInt8) (finish : ℕ) : List UInt8 :=
  let mapping := if mapped then bytes else List.replicate (max finish options.initialLen) 0
  if finish > mapping.length then
    ensureLen mapping (max finish (mapping.length * options.growthFactor))
  else mapping

def updateRegion (bytes : List UInt8) (w : Write) : List UInt8 :=
  bytes.take w.offset ++ w.data ++ bytes.drop w.finish

def State.writeAt (s : State) (w : Write) : State :=
  if w.data = [] ∨ s.inner.failed = true ∨ 2 ^ 64 ≤ w.finish then s
  else match s.disk.tmp with
    | none => s
    | some file =>
      if (s.mapped = false ∨ w.finish > file.bytes.length) ∧ w.grows = false then s
      else
        let bytes := grown s.options s.mapped file.bytes w.finish
        if w.copies = false then
          { s with mapped := true, disk := { s.disk with tmp := some ⟨bytes, false⟩ } }
        else
          { s with
            mapped := true
            disk := { s.disk with tmp := some ⟨updateRegion bytes w, false⟩ }
            written := fun p =>
              if w.offset ≤ p ∧ p < w.finish then w.data.getD (p - w.offset) 0 else s.written p }

/-- The answers of the steps of one commit: `healthy` covers the check and the flush of
`release_backing`, `metadata` the length asked before the trim. -/
structure CommitInput where
  finalLen : Option ℕ
  healthy : Bool
  metadata : Bool
  setLen : Bool
  syncData : Bool
  rename : Bool
  reopen : Bool
  deriving DecidableEq, Repr

inductive Stage where
  | release
  | trim
  | sync
  | rename
  | reopen
  | publish
  | returned (ok : Bool)
  deriving DecidableEq, Repr

def State.fail (s : State) : State := s.setInner { s.inner with failed := true }

def refused (s : State) : State × Stage := (s.fail, .returned false)

/-- Does the commit have the file cut? A length that cannot be asked is taken for short enough. -/
def CommitInput.trims (c : CommitInput) (file : FileData) : Option ℕ :=
  c.finalLen.filter fun len => c.metadata && decide (len < file.bytes.length)

def commitStep (c : CommitInput) : State × Stage → State × Stage
  | (s, .release) => if c.healthy then ({ s with mapped := false }, .trim) else refused s
  | (s, .trim) =>
    match s.disk.tmp.bind c.trims with
    | none => (s, .sync)
    | some len =>
      if c.setLen then
        ({ s with disk := { s.disk with
            tmp := s.disk.tmp.map fun file => ⟨file.bytes.take len, false⟩ } }, .sync)
      else refused s
  | (s, .sync) =>
    match s.options.barrier with
    | .deferred => (s, .rename)
    | .inline =>
      if c.syncData then
        ({ s with disk := { s.disk with
            tmp := s.disk.tmp.map fun file => { file with synced := true } } }, .rename)
      else refused s
  | (s, .rename) =>
    if c.rename then
      ({ s with disk := ⟨s.disk.tmp, none⟩, renamed := true }, .reopen)
    else refused s
  | (s, .reopen) => if c.reopen then ({ s with reopened := some {} }, .publish) else refused s
  | (s, .publish) =>
    let settled (core : Core) : Core := { core with committed := true, finalLen := c.finalLen }
    ({ s with original := settled s.original, reopened := s.reopened.map settled },
      .returned true)
  | (s, .returned ok) => (s, .returned ok)

def commitSteps (c : CommitInput) : ℕ → State × Stage → State × Stage
  | 0, p => p
  | n + 1, p => commitSteps c n (commitStep c p)

def State.commit (s : State) (c : CommitInput) (n : ℕ) : State × Stage :=
  commitSteps c n ({ s with claimed := false }, .release)

def State.removeTmp (s : State) : State :=
  if s.claimed then { s with claimed := false, disk := { s.disk with tmp := none } } else s

def State.failWriter (s : State) : State := s.fail.removeTmp

/-- The claim of an abandoned writer stays, and so does its temp file. -/
def State.abandon (s : State) : State := s.setInner { s.inner with stampOnDrop := false }

def Core.failsOnDrop (core : Core) : Bool := core.stampOnDrop && !core.committed && !core.failed

def State.drop (s : State) : State :=
  if s.inner.failsOnDrop then s.removeTmp.fail else s.removeTmp

inductive After where
  | fail
  | abandon
  deriving DecidableEq, Repr

def State.after (s : State) : After → State
  | .fail => s.failWriter
  | .abandon => s.abandon

/-- How a writer ends: committed or not, `crash` the number of steps of the commit after which
the process dies; then, unless it died, failed or abandoned any number of times, and dropped. -/
structure Ending where
  commit : Option (CommitInput × Option ℕ)
  afters : List After
  dropped : Bool
  deriving DecidableEq, Repr

def commitLength : ℕ := 6

def Ending.committed (e : Ending) (s : State) : State × Option Stage :=
  match e.commit with
  | none => (s, none)
  | some (c, crash) =>
    let p := s.commit c (crash.getD commitLength)
    (p.1, some p.2)

def Ending.crashed (e : Ending) : Bool := (e.commit.bind Prod.snd).isSome

def Ending.run (e : Ending) (s : State) : State :=
  let t := (e.committed s).1
  if e.crashed then t
  else
    let u := e.afters.foldl State.after t
    if e.dropped then u.drop else u

end ChunkedCommit

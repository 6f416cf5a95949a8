import Kithara.AssetPins
import Kithara.LruTable
import Kithara.TransitionSystem

/-! The disk cache of asset resources: committed files under their roots, the evictor's table of
roots with the bytes recorded for each, and the pins that bar a root from eviction. -/
namespace AssetCache

open KeyedSums LruTable AssetPins TransitionSystem

variable (Root Path : Type*) [DecidableEq Root] [DecidableEq Path]

/-- `confirmed` lists the resources whose final length the availability index knows. -/
structure State where
  files : Table (Root × Path) ℕ
  confirmed : List (Root × Path)
  lru : LruState Root
  /-- Roots the evictor touched once. -/
  seen : List Root
  pins : PinsIndex Root

/-- `order` is how the evictor's map is iterated; `flushed`, that the table was written; `sized`,
that the commit gives the final length. -/
inductive Action where
  | openResource (root : Root) (path : Path) (flushed : Bool) (order : List (Entry Root))
  | acquireResource (root : Root) (path : Path) (flushed : Bool) (order : List (Entry Root))
  /-- A handle served without the store, from another handle or the cache of them. -/
  | lease (root : Root) (durability : PinDurability)
  | release (root : Root) (durability : PinDurability)
  | commit (root : Root) (path : Path) (len : ℕ) (sized : Bool) (order : List (Entry Root))
  | removeResource (root : Root) (path : Path)
  | deleteAsset (root : Root)

variable {Root Path}

def start : State Root Path :=
  { files := ∅, confirmed := [], lru := .new, seen := [], pins := .empty }

namespace State

variable (s : State Root Path)

/-- The directory of the root goes, with its pin as a writer's and its entry. -/
def deleteAsset (root : Root) : State Root Path :=
  { s with
    files := keep (fun key => key.1 ≠ root) s.files
    confirmed := s.confirmed.filter fun key => key.1 ≠ root
    pins := (s.pins.remove root .durable).1
    lru := (s.lru.remove root).1 }

def evictOne (pinned : List Root) (cand : Root) : State Root Path :=
  if cand ∈ pinned then s else s.deleteAsset cand

def evictAll (pinned candidates : List Root) : State Root Path :=
  candidates.foldl (fun s cand => s.evictOne pinned cand) s

def onAssetCreated (cfg : EvictConfig) (root : Root) (order : List (Entry Root)) :
    State Root Path :=
  let pinned := s.pins.snapshot
  s.evictAll pinned (s.lru.evictionCandidates order cfg (root :: pinned))

def touchAndMaybeEvict (cfg : EvictConfig) (root : Root) (flushed : Bool)
    (order : List (Entry Root)) : State Root Path :=
  if root ∈ s.seen then s
  else
    let touched := s.lru.touch root none
    let s := { s with seen := root :: s.seen, lru := touched.1 }
    if flushed && touched.2 then s.onAssetCreated cfg root order else s

def recordAssetBytes (root : Root) (bytes : ℕ) : State Root Path :=
  { s with lru := (s.lru.updateBytes root bytes).1 }

def checkAndEvictIfOverLimit (cfg : EvictConfig) (order : List (Entry Root)) : State Root Path :=
  if cfg.maxBytes.isNone then s
  else
    let pinned := s.pins.snapshot
    s.evictAll pinned (s.lru.evictionCandidates order cfg pinned)

def confirm (root : Root) (path : Path) : State Root Path :=
  { s with confirmed := (root, path) :: s.confirmed }

/-- The file is in place under its name, and its length recorded for its root. -/
def committed (root : Root) (path : Path) (len : ℕ) (sized : Bool) : State Root Path :=
  { s with
    files := s.files.insert (root, path) len
    confirmed := if sized then (root, path) :: s.confirmed else s.confirmed }.recordAssetBytes
      root len

def pin (root : Root) (durability : PinDurability) : State Root Path :=
  { s with pins := (s.pins.add root durability).1 }

def Holds (root : Root) : Prop := ∃ path, (root, path) ∈ s.files

def rootBytes (root : Root) : ℕ := sumOn (fun key => key.1 = root) id s.files

def diskBytes : ℕ := sumOn (fun _ => true) id s.files

def otherBytes (root : Root) (path : Path) : ℕ :=
  sumOn (fun key => key.1 = root && key ≠ (root, path)) id s.files

end State

def Enabled (s : State Root Path) : Action Root Path → Prop
  | .openResource root _ _ order | .acquireResource root _ _ order =>
    order.Perm (s.lru.touch root none).1.byRoot.entries
  | .commit root path len sized order =>
    order.Perm (s.committed root path len sized).lru.byRoot.entries
  | _ => True

def next (cfg : EvictConfig) (s : State Root Path) : Action Root Path → State Root Path
  | .openResource root path flushed order =>
    let s := s.touchAndMaybeEvict cfg root flushed order
    if (s.files.lookup (root, path)).isSome then (s.confirm root path).pin root .local else s
  | .acquireResource root path flushed order =>
    let s := s.touchAndMaybeEvict cfg root flushed order
    -- a file that is empty or was never confirmed is cleared and fetched again
    if (root, path) ∈ s.confirmed ∧ (s.files.lookup (root, path)).any (0 < ·) then s.pin root .local
    else { s with files := s.files.erase (root, path) }.pin root .durable
  | .lease root durability => s.pin root durability
  | .release root durability => { s with pins := (s.pins.remove root durability).1 }
  | .commit root path len sized order =>
    (s.committed root path len sized).checkAndEvictIfOverLimit cfg order
  | .removeResource root path =>
    { s with
      files := s.files.erase (root, path)
      confirmed := s.confirmed.filter (· ≠ (root, path)) }
  | .deleteAsset root => s.deleteAsset root

def machine (cfg : EvictConfig) : Machine (State Root Path) (Action Root Path) where
  Enabled := Enabled
  next := next cfg

end AssetCache

import Kithara.HlsPlanQueue
import Kithara.TilingSearch
import Mathlib.Tactic.Ring

/-! The byte geometry of an HLS variant: segment sizes, the published frame of offsets over them,
the lookup of a byte, and the mutations that publish a frame. Sums are `u64` words and shifted
addresses `i64` words, so a table whose bytes do not fit is not given a meaning by accident. -/
namespace HlsOffsets

open HlsPlanQueue TilingSearch

structure SegmentSize where
  readBytes : ℕ
  routeBytes : ℕ
  exact : Bool
  deriving DecidableEq, Repr

namespace SegmentSize

def empty : SegmentSize := ⟨0, 0, false⟩

def get (s : SegmentSize) : ℕ := s.routeBytes

def isExact (s : SegmentSize) : Bool := s.exact

def placeholder (n : ℕ) : SegmentSize := { empty with routeBytes := n }

def readLen (s : SegmentSize) : ℕ := if s.isExact then s.readBytes else s.get

def seed (n : ℕ) : SegmentSize := ⟨n, n, decide (0 < n)⟩

def setExact (_ : SegmentSize) (n : ℕ) : SegmentSize := ⟨n, n, true⟩

def setExactIfUnknown (s : SegmentSize) (n : ℕ) : SegmentSize :=
  if n = 0 ∨ s.isExact then s else s.setExact n

end SegmentSize

/-- The size atoms of a variant, shared by every frame. -/
structure MediaTable where
  init : Option SegmentSize
  segments : List SegmentSize
  deriving DecidableEq, Repr

namespace MediaTable

def initRouteSize (t : MediaTable) : ℕ := t.init.elim 0 SegmentSize.get

def lengths (t : MediaTable) : List ℕ := t.segments.map SegmentSize.get

/-- Every byte of the table, its prefix included. -/
def bytes (t : MediaTable) : ℕ := t.initRouteSize + t.lengths.sum

/-- An absent slot has nothing to store. -/
def modify (t : MediaTable) (f : SegmentSize → SegmentSize) : PlannedFetch → MediaTable
  | .init => { t with init := t.init.map f }
  | .segment index => { t with segments := t.segments.modify index f }

end MediaTable

def i64TryFrom (n : ℕ) : Option ℤ := if n < 2 ^ 63 then some (n : ℤ) else none

def u64TryFrom (v : ℤ) : Option ℕ := if 0 ≤ v then some v.toNat else none

def checkedI64 (v : ℤ) : Option ℤ := if -2 ^ 63 ≤ v ∧ v < 2 ^ 63 then some v else none

def wrap (n : ℕ) : ℕ := n % 2 ^ 64

def greatestU32 : ℕ := 2 ^ 32 - 1

/-- A count that saturates in 32 bits. -/
def u32Count (n : ℕ) : ℕ := min n greatestU32

structure Frame where
  offsets : List ℕ
  byteShift : ℤ
  servedFrom : ℕ
  servedUntil : ℕ
  initSeed : ℕ
  deriving DecidableEq, Repr

/-- Each segment's offset, and the sum past it carried to the next. -/
def cumulative : ℕ → List SegmentSize → List ℕ
  | _, [] => []
  | cum, s :: rest => cum :: cumulative (wrap (cum + s.get)) rest

namespace Frame

def findLoop (offsets lengths : List ℕ) (byte lo hi : ℕ) : Option (ℕ × ℕ × ℕ) :=
  if _ : lo < hi then
    let mid := lo + (hi - lo) / 2
    let off := offsets.getD mid 0
    let size := lengths.getD mid 0
    if byte < off then findLoop offsets lengths byte lo mid
    else if byte ≥ wrap (off + size) then findLoop offsets lengths byte (mid + 1) hi
    else some (mid, off, size)
  else none
termination_by hi - lo

def findNatural (f : Frame) (byte : ℕ) (segments : List SegmentSize) : Option (ℕ × ℕ × ℕ) := do
  let (mid, off, size) ←
    findLoop f.offsets (segments.map SegmentSize.get) byte 0 f.offsets.length
  if mid ≤ greatestU32 then some (mid, off, size) else none

/-- The lookup of a reader: the shift taken off, the served range kept, the shift put back. -/
def findVirtual (f : Frame) (byteVirtual : ℕ) (segments : List SegmentSize) :
    Option (ℕ × ℕ × ℕ) := do
  let signed ← i64TryFrom byteVirtual
  let byteNatural ← checkedI64 (signed - f.byteShift)
  let byteNatural ← u64TryFrom byteNatural
  let (idx, offNat, size) ← f.findNatural byteNatural segments
  if idx < f.servedFrom ∨ idx ≥ f.servedUntil then none
  else do
    let offSigned ← i64TryFrom offNat
    let shifted ← checkedI64 (offSigned + f.byteShift)
    let offVirtual ← u64TryFrom shifted
    some (idx, offVirtual, size)

def recompute (f : Frame) (initSize : ℕ) (segments : List SegmentSize) : Frame :=
  { f with offsets := cumulative (if f.initSeed > 0 then f.initSeed else initSize) segments }

def segmentByteOffset (f : Frame) (idx : ℕ) : Option ℕ := do
  let natural ← f.offsets[idx]?
  let signed ← i64TryFrom natural
  let shifted ← checkedI64 (signed + f.byteShift)
  u64TryFrom shifted

def served (f : Frame) (segments : List SegmentSize) : List SegmentSize :=
  (segments.take f.servedUntil).drop f.servedFrom

def sizesComplete (f : Frame) (segments : List SegmentSize) : Bool :=
  (f.served segments).all SegmentSize.isExact

/-- The offset past a segment the table and the frame both have. -/
def endOf (f : Frame) (segments : List SegmentSize) (idx : ℕ) : Option ℕ := do
  let off ← f.offsets[idx]?
  let s ← segments[idx]?
  some (wrap (off + s.get))

def naturalTotal (f : Frame) (segments : List SegmentSize) (initSize : ℕ) : ℕ :=
  match f.endOf segments (f.servedUntil - 1) with
  | some total => total
  | none =>
    if segments = [] then initSize
    else (f.endOf segments (segments.length - 1)).getD initSize

def totalBytes (f : Frame) (segments : List SegmentSize) (initSize : ℕ) : ℕ :=
  let adjusted := do
    let natural ← i64TryFrom (f.naturalTotal segments initSize)
    let shifted ← checkedI64 (natural + f.byteShift)
    u64TryFrom shifted
  adjusted.getD 0

end Frame

structure Layout where
  frame : Frame
  sizesComplete : Bool
  publicationSeq : ℕ
  total : ℕ
  deriving DecidableEq, Repr

namespace Layout

def publish (frame : Frame) (publicationSeq : ℕ) (t : MediaTable) : Layout :=
  { frame
    sizesComplete := frame.sizesComplete t.segments
    publicationSeq
    total := frame.totalBytes t.segments t.initRouteSize }

def new (t : MediaTable) : Layout :=
  let frame : Frame :=
    { offsets := [], byteShift := 0, servedFrom := 0, servedUntil := u32Count t.segments.length,
      initSeed := 0 }
  publish (frame.recompute t.initRouteSize t.segments) 0 t

/-- Stores sizes, derives the next frame from the stored ones and publishes both. -/
def mutateFrame (l : Layout) (t : MediaTable) (store : MediaTable → MediaTable)
    (f : Frame → ℕ → List SegmentSize → Frame) : Layout × MediaTable :=
  let stored := store t
  (publish (f l.frame stored.initRouteSize stored.segments) (l.publicationSeq + 2) stored, stored)

def applyCommit (l : Layout) (t : MediaTable) (store : MediaTable → MediaTable) :
    Layout × MediaTable :=
  l.mutateFrame t store fun frame initSize segments => frame.recompute initSize segments

def reset (l : Layout) (t : MediaTable) (store : MediaTable → MediaTable) :
    Layout × MediaTable :=
  l.mutateFrame t store fun frame initSize segments =>
    { frame with
      byteShift := 0
      servedFrom := 0
      servedUntil := u32Count segments.length
      initSeed := 0 }.recompute initSize segments

def isCanonicalComplete (l : Layout) (segments : List SegmentSize) : Bool :=
  l.sizesComplete && decide (l.frame.byteShift = 0 ∧ l.frame.servedFrom = 0 ∧
    l.frame.servedUntil = u32Count segments.length ∧ l.frame.initSeed = 0 ∧
    l.frame.offsets.length = segments.length)

def findAtOffset (l : Layout) (byteVirtual : ℕ) (segments : List SegmentSize) :
    Option (ℕ × ℕ × ℕ) := l.frame.findVirtual byteVirtual segments

def segmentByteOffset (l : Layout) (idx : ℕ) : Option ℕ := l.frame.segmentByteOffset idx

end Layout

/-- A settled size: a committed length, or a probed one that only fills an unknown. -/
structure Settle where
  planned : PlannedFetch
  len : ℕ
  loaded : Bool
  deriving DecidableEq, Repr

def Settle.store (t : MediaTable) (s : Settle) : MediaTable :=
  t.modify (fun size => if s.loaded then size.setExact s.len else size.setExactIfUnknown s.len)
    s.planned

inductive Mutation where
  | applyCommit (settles : List Settle)
  | reset (settles : List Settle)
  deriving DecidableEq, Repr

def apply (p : Layout × MediaTable) : Mutation → Layout × MediaTable
  | .applyCommit settles => p.1.applyCommit p.2 fun t => settles.foldl Settle.store t
  | .reset settles => p.1.reset p.2 fun t => settles.foldl Settle.store t

def run (t : MediaTable) (mutations : List Mutation) : Layout × MediaTable :=
  mutations.foldl apply (Layout.new t, t)

/-- The frame of a full range, recomputed from these sizes. -/
def canonicalFrame (t : MediaTable) : Frame :=
  { offsets := cumulative t.initRouteSize t.segments
    byteShift := 0
    servedFrom := 0
    servedUntil := u32Count t.segments.length
    initSeed := 0 }

/-- What is published was computed from the sizes as they are. -/
def Canonical (l : Layout) (t : MediaTable) : Prop :=
  ∃ publicationSeq, l = Layout.publish (canonicalFrame t) publicationSeq t

theorem new_canonical (t : MediaTable) : Canonical (Layout.new t) t := ⟨0, rfl⟩

theorem store_segments (t : MediaTable) (s : Settle) :
    (s.store t).segments.length = t.segments.length := by
  unfold Settle.store
  cases s.planned with
  | init => rfl
  | segment index => exact List.length_modify _ _ _

theorem stores_segments (settles : List Settle) (t : MediaTable) :
    (settles.foldl Settle.store t).segments.length = t.segments.length := by
  induction settles generalizing t with
  | nil => rfl
  | cons s settles ih => exact (ih _).trans (store_segments t s)

theorem applyCommit_canonical {l : Layout} {t : MediaTable} (store : MediaTable → MediaTable)
    (h : Canonical l t) (hstore : (store t).segments.length = t.segments.length) :
    Canonical (l.applyCommit t store).1 (l.applyCommit t store).2 := by
  obtain ⟨seq, rfl⟩ := h
  refine ⟨seq + 2, ?_⟩
  show Layout.publish (Frame.recompute (canonicalFrame t) _ _) _ _ = Layout.publish _ _ _
  congr 1
  unfold Frame.recompute canonicalFrame Layout.applyCommit Layout.mutateFrame
  simp only [gt_iff_lt, lt_irrefl, if_false, hstore]

theorem reset_canonical (l : Layout) (t : MediaTable) (store : MediaTable → MediaTable) :
    Canonical (l.reset t store).1 (l.reset t store).2 := ⟨l.publicationSeq + 2, rfl⟩

theorem apply_canonical {p : Layout × MediaTable} (h : Canonical p.1 p.2) (mutation : Mutation) :
    Canonical (apply p mutation).1 (apply p mutation).2 := by
  cases mutation with
  | applyCommit settles => exact applyCommit_canonical _ h (stores_segments settles p.2)
  | reset settles => exact reset_canonical _ _ _

theorem run_canonical (t : MediaTable) (mutations : List Mutation) :
    Canonical (run t mutations).1 (run t mutations).2 := by
  have hfrom : ∀ p : Layout × MediaTable, Canonical p.1 p.2 →
      Canonical (mutations.foldl apply p).1 (mutations.foldl apply p).2 := by
    induction mutations with
    | nil => exact fun p h => h
    | cons mutation mutations ih => exact fun p h => ih _ (apply_canonical h mutation)
  exact hfrom _ (new_canonical t)

end HlsOffsets

import Kithara.HlsPlanQueue

/-! The state of one segment or init slot. The flag byte is claimed by a compare-exchange against
zero; the failure counter and the reader's demand are kept beside it, so they never block one. -/
namespace HlsSegmentSlot

structure SlotFlags where
  downloading : Bool
  loaded : Bool
  failed : Bool
  slow : Bool
  evicted : Bool
  deriving DecidableEq, Repr

namespace SlotFlags

def empty : SlotFlags := ⟨false, false, false, false, false⟩

end SlotFlags

structure SegmentSlotState where
  readerDemand : Bool
  acquireFailures : ℕ
  flags : SlotFlags
  deriving DecidableEq, Repr

namespace SegmentSlotState

def missing : SegmentSlotState :=
  { readerDemand := false, acquireFailures := 0, flags := .empty }

def settle (s : SegmentSlotState) (flags : SlotFlags) : SegmentSlotState :=
  { s with flags := flags, readerDemand := false }

def markFailed (s : SegmentSlotState) : SegmentSlotState :=
  s.settle { SlotFlags.empty with failed := true }

def markMissing (s : SegmentSlotState) : SegmentSlotState := s.settle .empty

/-- Settles loaded, unless an eviction reached the slot while its fetch was in flight. -/
def markLoaded (s : SegmentSlotState) : SegmentSlotState × Bool :=
  (s.settle (if s.flags.evicted then .empty else { SlotFlags.empty with loaded := true }),
    !s.flags.evicted)

def markEvicted (s : SegmentSlotState) : SegmentSlotState :=
  { s with flags := if s.flags.downloading then { s.flags with evicted := true } else .empty }

def markSlow (s : SegmentSlotState) : SegmentSlotState :=
  { s with flags := { s.flags with slow := true } }

def noteReaderDemand (s : SegmentSlotState) : SegmentSlotState :=
  if s.flags.downloading then { s with readerDemand := true } else s

/-- One more dispatch-side failure; the count saturates in its byte. -/
def noteAcquireFailure (s : SegmentSlotState) : SegmentSlotState × ℕ :=
  let next := min (s.acquireFailures + 1) 255
  ({ s with acquireFailures := next }, next)

def clearAcquireFailures (s : SegmentSlotState) : SegmentSlotState :=
  { s with acquireFailures := 0 }

def tryClaim (s : SegmentSlotState) : Option SegmentSlotState :=
  if s.flags = .empty then some { s with flags := { SlotFlags.empty with downloading := true } }
  else none

/-- Loaded or terminally failed: nothing is owed for the slot any more. -/
def settled (s : SegmentSlotState) : Bool := s.flags.loaded || s.flags.failed

/-- A slot in flight is neither loaded nor failed. -/
def Exclusive (s : SegmentSlotState) : Prop := s.flags.downloading = true → s.settled = false

@[simp] theorem markMissing_downloading (s : SegmentSlotState) :
    s.markMissing.flags.downloading = false := rfl

@[simp] theorem markFailed_downloading (s : SegmentSlotState) :
    s.markFailed.flags.downloading = false := rfl

@[simp] theorem markFailed_settled (s : SegmentSlotState) : s.markFailed.settled = true := rfl

@[simp] theorem markLoaded_downloading (s : SegmentSlotState) :
    s.markLoaded.1.flags.downloading = false := by
  cases h : s.flags.evicted <;> simp [markLoaded, settle, h, SlotFlags.empty]

theorem markLoaded_settled {s : SegmentSlotState} (h : s.markLoaded.2 = true) :
    s.markLoaded.1.settled = true := by
  have he : s.flags.evicted = false := by simpa [markLoaded] using h
  simp [markLoaded, settle, settled, he]

theorem tryClaim_eq_some {s s' : SegmentSlotState} (h : s.tryClaim = some s') :
    s.flags.downloading = false ∧ s.settled = false ∧ s'.flags.downloading = true ∧
      s'.settled = false := by
  simp only [tryClaim] at h
  by_cases he : s.flags = .empty
  · rw [if_pos he] at h
    cases h
    simp [settled, he, SlotFlags.empty]
  · rw [if_neg he] at h
    cases h

theorem markEvicted_inFlight {s : SegmentSlotState} (h : s.flags.downloading = true) :
    s.markEvicted.flags.downloading = true ∧ s.markEvicted.settled = s.settled := by
  simp [markEvicted, settled, h]

theorem noteReaderDemand_same (s : SegmentSlotState) :
    s.noteReaderDemand.flags = s.flags := by
  by_cases h : s.flags.downloading = true <;> simp [noteReaderDemand, h]

theorem markSlow_same (s : SegmentSlotState) :
    s.markSlow.flags.downloading = s.flags.downloading ∧ s.markSlow.settled = s.settled :=
  ⟨rfl, rfl⟩

end SegmentSlotState

end HlsSegmentSlot

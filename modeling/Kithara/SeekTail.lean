import Kithara.OffsetTiling
import Mathlib.Data.List.Induction

/-! Settles of a variant around a live seek tail. A media settle behind the tail is parked so that
the byte space of the reader stays, and the next reset applies what is parked; the tail moves on
its own in between, so one segment may be settled on both sides of it. -/
namespace SeekTail

open HlsPlanQueue HlsOffsets

def noSeekTail : ℕ := 2 ^ 32 - 1

structure Variant where
  layout : Layout
  table : MediaTable
  segmentAwareTail : ℕ
  deferredPrefix : List (ℕ × ℕ)
  needsExactByteSizes : Bool
  deriving DecidableEq

namespace Variant

def new (table : MediaTable) (needsExactByteSizes : Bool) : Variant :=
  { layout := Layout.new table
    table
    segmentAwareTail := noSeekTail
    deferredPrefix := []
    needsExactByteSizes }

def applyLoadedSize (t : MediaTable) (planned : PlannedFetch) (finalLen : ℕ) : MediaTable :=
  t.modify (fun size => size.setExact finalLen) planned

/-- What the settle adds to the parked ones; absent where it is not deferred. -/
def deferPrefixSettle (v : Variant) (planned : PlannedFetch) (finalLen : ℕ) : Option (ℕ × ℕ) :=
  if v.segmentAwareTail = noSeekTail then none
  else
    match planned with
    | .init => none
    | .segment idx => if idx ≥ v.segmentAwareTail then none else some (idx, finalLen)

def applyCommit (v : Variant) (planned : PlannedFetch) (finalLen : ℕ) : Variant :=
  match v.deferPrefixSettle planned finalLen with
  | some parked =>
    let published := v.layout.applyCommit v.table id
    { v with
      layout := published.1
      table := published.2
      deferredPrefix := v.deferredPrefix ++ [parked] }
  | none =>
    let published := v.layout.applyCommit v.table fun t => applyLoadedSize t planned finalLen
    { v with layout := published.1, table := published.2 }

def setSegmentAwareSeekTail (v : Variant) (segment : ℕ) : Variant :=
  if v.needsExactByteSizes then v else { v with segmentAwareTail := segment }

def layoutSeekInvariant (v : Variant) : Bool :=
  v.layout.isCanonicalComplete v.table.segments && v.deferredPrefix.isEmpty

/-- The parked sizes, in the order they were parked. -/
def drain (deferred : List (ℕ × ℕ)) (t : MediaTable) : MediaTable :=
  deferred.foldl (fun t parked => applyLoadedSize t (.segment parked.1) parked.2) t

def resetLayoutToFullRange (v : Variant) : Variant :=
  if v.layoutSeekInvariant then v
  else
    let published := v.layout.reset v.table (drain v.deferredPrefix)
    { v with
      layout := published.1
      table := published.2
      segmentAwareTail := noSeekTail
      deferredPrefix := [] }

end Variant

inductive Event where
  | settle (planned : PlannedFetch) (finalLen : ℕ)
  | setTail (segment : ℕ)
  | reset
  deriving DecidableEq

def apply (v : Variant) : Event → Variant
  | .settle planned finalLen => v.applyCommit planned finalLen
  | .setTail segment => v.setSegmentAwareSeekTail segment
  | .reset => v.resetLayoutToFullRange

def run (v : Variant) (events : List Event) : Variant := events.foldl apply v

/-- The last length given for a segment. -/
def latest (idx : ℕ) (settles : List (ℕ × ℕ)) : Option ℕ :=
  settles.foldl (fun last settle => if settle.1 = idx then some settle.2 else last) none

/-- The media settles of a run, in order. -/
def mediaSettle : Event → List (ℕ × ℕ)
  | .settle (.segment idx) finalLen => [(idx, finalLen)]
  | _ => []

def settlesOf (events : List Event) : List (ℕ × ℕ) := events.flatMap mediaSettle

/-- The segment's size atom holds this length, exact. -/
def Holds (v : Variant) (idx len : ℕ) : Prop := v.table.segments[idx]? = some ⟨len, len, true⟩

theorem latest_concat (idx : ℕ) (settles : List (ℕ × ℕ)) (settle : ℕ × ℕ) :
    latest idx (settles ++ [settle]) =
      if settle.1 = idx then some settle.2 else latest idx settles := by
  rw [latest, List.foldl_append]
  rfl

theorem latest_mem {idx len : ℕ} {settles : List (ℕ × ℕ)} (h : latest idx settles = some len) :
    (idx, len) ∈ settles := by
  induction settles using List.reverseRecOn with
  | nil => cases h
  | append_singleton settles settle ih =>
    rw [latest_concat] at h
    split at h
    · next heq =>
      cases h
      rw [← heq]
      exact List.mem_append_right _ List.mem_cons_self
    · exact List.mem_append_left _ (ih h)

theorem applyLoadedSize_segment (t : MediaTable) (idx other len : ℕ) :
    (Variant.applyLoadedSize t (.segment idx) len).segments[other]? =
      if idx = other then t.segments[other]?.map fun _ => ⟨len, len, true⟩
      else t.segments[other]? := by
  show (t.segments.modify idx _)[other]? = _
  rw [List.getElem?_modify]
  split
  · rfl
  · cases t.segments[other]? <;> rfl

theorem applyLoadedSize_length (t : MediaTable) (planned : PlannedFetch) (len : ℕ) :
    (Variant.applyLoadedSize t planned len).segments.length = t.segments.length := by
  cases planned with
  | init => rfl
  | segment idx => exact List.length_modify _ _ _

theorem drain_length (deferred : List (ℕ × ℕ)) (t : MediaTable) :
    (Variant.drain deferred t).segments.length = t.segments.length := by
  induction deferred generalizing t with
  | nil => rfl
  | cons parked deferred ih => exact (ih _).trans (applyLoadedSize_length t _ _)

theorem drain_segment (deferred : List (ℕ × ℕ)) (t : MediaTable) (idx : ℕ) :
    (Variant.drain deferred t).segments[idx]? =
      (latest idx deferred).elim t.segments[idx]?
        fun len => t.segments[idx]?.map fun _ => ⟨len, len, true⟩ := by
  induction deferred using List.reverseRecOn with
  | nil => rfl
  | append_singleton deferred parked ih =>
    have hstep : Variant.drain (deferred ++ [parked]) t =
        Variant.applyLoadedSize (Variant.drain deferred t) (.segment parked.1) parked.2 := by
      rw [Variant.drain, List.foldl_append]
      rfl
    rw [hstep, applyLoadedSize_segment, ih, latest_concat]
    split
    · cases latest idx deferred with
      | none => rfl
      | some len =>
        show (t.segments[idx]?.map _).map _ = t.segments[idx]?.map _
        rw [Option.map_map]
        rfl
    · rfl

theorem defer_eq_some {v : Variant} {planned : PlannedFetch} {len : ℕ} {parked : ℕ × ℕ} :
    v.deferPrefixSettle planned len = some parked ↔ v.segmentAwareTail ≠ noSeekTail ∧
      planned = .segment parked.1 ∧ parked.1 < v.segmentAwareTail ∧ parked.2 = len := by
  unfold Variant.deferPrefixSettle
  split
  · next hnone => simp [hnone]
  · next hlive =>
    cases planned with
    | init => simp
    | segment idx =>
      obtain ⟨i, l⟩ := parked
      simp only [PlannedFetch.segment.injEq]
      split
      · next hge =>
        simp only [reduceCtorEq, false_iff]
        rintro ⟨_, rfl, hlt, _⟩
        omega
      · next hlt =>
        simp only [Option.some.injEq, Prod.mk.injEq]
        constructor
        · rintro ⟨rfl, rfl⟩
          exact ⟨hlive, rfl, by omega, rfl⟩
        · rintro ⟨_, rfl, _, rfl⟩
          exact ⟨rfl, rfl⟩

theorem applyCommit_parked {v : Variant} {planned : PlannedFetch} {len : ℕ} {parked : ℕ × ℕ}
    (h : v.deferPrefixSettle planned len = some parked) : v.applyCommit planned len =
      { v with
        layout := (v.layout.applyCommit v.table id).1
        deferredPrefix := v.deferredPrefix ++ [parked] } := by
  rw [Variant.applyCommit, h]
  rfl

theorem applyCommit_applied {v : Variant} {planned : PlannedFetch} {len : ℕ}
    (h : v.deferPrefixSettle planned len = none) : v.applyCommit planned len =
      { v with
        layout := (v.layout.applyCommit v.table fun t => Variant.applyLoadedSize t planned len).1
        table := Variant.applyLoadedSize v.table planned len } := by
  rw [Variant.applyCommit, h]
  rfl

theorem reset_skipped {v : Variant} (h : v.layoutSeekInvariant = true) :
    v.resetLayoutToFullRange = v := if_pos h

theorem reset_ran {v : Variant} (h : v.layoutSeekInvariant = false) : v.resetLayoutToFullRange =
      { v with
        layout := (v.layout.reset v.table (Variant.drain v.deferredPrefix)).1
        table := Variant.drain v.deferredPrefix v.table
        segmentAwareTail := noSeekTail
        deferredPrefix := [] } := by
  rw [Variant.resetLayoutToFullRange, if_neg (by rw [h]; exact Bool.false_ne_true)]
  rfl

theorem skipped_empty {v : Variant} (h : v.layoutSeekInvariant = true) : v.deferredPrefix = [] := by
  rw [Variant.layoutSeekInvariant, Bool.and_eq_true, List.isEmpty_iff] at h
  exact h.2

theorem apply_reset_empty (v : Variant) : (apply v .reset).deferredPrefix = [] := by
  show v.resetLayoutToFullRange.deferredPrefix = []
  cases h : v.layoutSeekInvariant with
  | true =>
    rw [reset_skipped h]
    exact skipped_empty h
  | false => rw [reset_ran h]

theorem apply_length (v : Variant) (e : Event) :
    (apply v e).table.segments.length = v.table.segments.length := by
  cases e with
  | settle planned len =>
    show (v.applyCommit planned len).table.segments.length = _
    cases h : v.deferPrefixSettle planned len with
    | some parked => rw [applyCommit_parked h]
    | none =>
      rw [applyCommit_applied h]
      exact applyLoadedSize_length _ _ _
  | setTail segment =>
    show (v.setSegmentAwareSeekTail segment).table.segments.length = _
    unfold Variant.setSegmentAwareSeekTail
    split <;> rfl
  | reset =>
    show v.resetLayoutToFullRange.table.segments.length = _
    cases h : v.layoutSeekInvariant with
    | true => rw [reset_skipped h]
    | false =>
      rw [reset_ran h]
      exact drain_length _ _

theorem apply_published {v : Variant} (h : Canonical v.layout v.table) (e : Event) :
    Canonical (apply v e).layout (apply v e).table := by
  cases e with
  | settle planned len =>
    show Canonical (v.applyCommit planned len).layout (v.applyCommit planned len).table
    cases hd : v.deferPrefixSettle planned len with
    | some parked =>
      rw [applyCommit_parked hd]
      exact applyCommit_canonical id h rfl
    | none =>
      rw [applyCommit_applied hd]
      have hstore := applyLoadedSize_length v.table planned len
      exact applyCommit_canonical (fun t => Variant.applyLoadedSize t planned len) h hstore
  | setTail segment =>
    show Canonical (v.setSegmentAwareSeekTail segment).layout _
    unfold apply Variant.setSegmentAwareSeekTail
    split <;> exact h
  | reset =>
    show Canonical v.resetLayoutToFullRange.layout v.resetLayoutToFullRange.table
    cases hr : v.layoutSeekInvariant with
    | true =>
      rw [reset_skipped hr]
      exact h
    | false =>
      rw [reset_ran hr]
      exact reset_canonical _ _ _

theorem run_published {v : Variant} (h : Canonical v.layout v.table) (events : List Event) :
    Canonical (run v events).layout (run v events).table := by
  induction events generalizing v with
  | nil => exact h
  | cons e events ih => exact ih (apply_published h e)

theorem run_length (v : Variant) (events : List Event) :
    (run v events).table.segments.length = v.table.segments.length := by
  induction events generalizing v with
  | nil => rfl
  | cons e events ih => exact (ih _).trans (apply_length v e)

theorem same_sizes_same_frame {l : Layout} {t : MediaTable} (h : Canonical l t) :
    (l.applyCommit t id).1.frame = l.frame := by
  obtain ⟨seq, rfl⟩ := h
  rfl

theorem settle_behind_tail {v : Variant} (h : Canonical v.layout v.table) {idx len : ℕ}
    (hlive : v.segmentAwareTail ≠ noSeekTail) (hbehind : idx < v.segmentAwareTail) (other : ℕ) :
    (apply v (.settle (.segment idx) len)).layout.segmentByteOffset other =
      v.layout.segmentByteOffset other := by
  have hparked : v.deferPrefixSettle (.segment idx) len = some (idx, len) :=
    defer_eq_some.mpr ⟨hlive, rfl, hbehind, rfl⟩
  show (v.applyCommit (.segment idx) len).layout.segmentByteOffset other = _
  rw [applyCommit_parked hparked]
  unfold Layout.segmentByteOffset
  rw [same_sizes_same_frame h]

/-- A media settle that is not parked finds no other length parked last for its segment. -/
def Meets (v : Variant) : Event → Prop
  | .settle (.segment idx) len => idx < v.table.segments.length →
    v.deferPrefixSettle (.segment idx) len = none →
      ∀ parked, latest idx v.deferredPrefix = some parked → parked = len
  | _ => True

def MeetsAll (v : Variant) : List Event → Prop
  | [] => True
  | e :: events => Meets v e ∧ MeetsAll (apply v e) events

/-- What is parked last for a segment is its last settle; where nothing is parked, the size is. -/
def Current (v : Variant) (settles : List (ℕ × ℕ)) : Prop :=
  ∀ idx len, idx < v.table.segments.length → latest idx settles = some len →
    latest idx v.deferredPrefix = some len ∨ (latest idx v.deferredPrefix = none ∧ Holds v idx len)

theorem settle_current {v : Variant} {settles : List (ℕ × ℕ)} (h : Current v settles)
    {planned : PlannedFetch} {len : ℕ} (hmeets : Meets v (.settle planned len)) :
    Current (apply v (.settle planned len)) (settles ++ mediaSettle (.settle planned len)) := by
  intro idx last hidx hlast
  rw [apply_length] at hidx
  change latest idx (v.applyCommit planned len).deferredPrefix = _ ∨
    (latest idx (v.applyCommit planned len).deferredPrefix = _ ∧
      Holds (v.applyCommit planned len) idx last)
  cases hd : v.deferPrefixSettle planned len with
  | some parked =>
    obtain ⟨_, rfl, _, hlen⟩ := defer_eq_some.mp hd
    obtain ⟨i, l⟩ := parked
    dsimp only at hlen
    subst hlen
    change latest idx (settles ++ [(i, l)]) = some last at hlast
    rw [applyCommit_parked hd]
    show latest idx (v.deferredPrefix ++ [(i, l)]) = _ ∨
      (latest idx (v.deferredPrefix ++ [(i, l)]) = _ ∧ Holds v idx last)
    rw [latest_concat] at hlast ⊢
    by_cases heq : i = idx
    · rw [if_pos heq] at hlast ⊢
      exact .inl hlast
    · rw [if_neg heq] at hlast ⊢
      exact h idx last hidx hlast
  | none =>
    rw [applyCommit_applied hd]
    cases planned with
    | init =>
      change latest idx (settles ++ []) = some last at hlast
      rw [List.append_nil] at hlast
      exact h idx last hidx hlast
    | segment i =>
      change latest idx (settles ++ [(i, len)]) = some last at hlast
      rw [latest_concat] at hlast
      have hsize := applyLoadedSize_segment v.table i idx len
      by_cases heq : i = idx
      · subst heq
        rw [if_pos rfl] at hlast hsize
        cases hlast
        cases hparked : latest i v.deferredPrefix with
        | some parked =>
          obtain rfl := hmeets hidx hd parked hparked
          exact .inl rfl
        | none =>
          refine .inr ⟨rfl, ?_⟩
          rw [Holds, hsize, List.getElem?_eq_getElem hidx, Option.map_some]
      · rw [if_neg heq] at hlast hsize
        rcases h idx last hidx hlast with hparked | ⟨hnone, hholds⟩
        · exact .inl hparked
        · refine .inr ⟨hnone, ?_⟩
          rw [Holds, hsize]
          exact hholds

theorem reset_holds {v : Variant} {settles : List (ℕ × ℕ)} (h : Current v settles) {idx len : ℕ}
    (hidx : idx < v.table.segments.length) (hlast : latest idx settles = some len) :
    Holds (apply v .reset) idx len := by
  show Holds v.resetLayoutToFullRange idx len
  cases hr : v.layoutSeekInvariant with
  | true =>
    rw [reset_skipped hr]
    rcases h idx len hidx hlast with hparked | ⟨_, hholds⟩
    · rw [skipped_empty hr] at hparked
      cases hparked
    · exact hholds
  | false =>
    rw [reset_ran hr]
    show (Variant.drain v.deferredPrefix v.table).segments[idx]? = _
    rw [drain_segment]
    rcases h idx len hidx hlast with hparked | ⟨hnone, hholds⟩
    · rw [hparked, Option.elim_some, List.getElem?_eq_getElem hidx, Option.map_some]
    · rw [hnone, Option.elim_none]
      exact hholds

theorem apply_current {v : Variant} {settles : List (ℕ × ℕ)} (h : Current v settles) {e : Event}
    (hmeets : Meets v e) : Current (apply v e) (settles ++ mediaSettle e) := by
  cases e with
  | settle planned len => exact settle_current h hmeets
  | setTail segment =>
    change Current (v.setSegmentAwareSeekTail segment) (settles ++ [])
    rw [List.append_nil]
    unfold Variant.setSegmentAwareSeekTail
    split <;> exact h
  | reset =>
    change Current (apply v .reset) (settles ++ [])
    rw [List.append_nil]
    intro idx len hidx hlast
    rw [apply_length] at hidx
    rw [apply_reset_empty]
    exact .inr ⟨rfl, reset_holds h hidx hlast⟩

theorem run_current {v : Variant} {settles : List (ℕ × ℕ)} (h : Current v settles)
    {events : List Event} (hmeets : MeetsAll v events) :
    Current (run v events) (settles ++ settlesOf events) := by
  induction events generalizing v settles with
  | nil =>
    rw [settlesOf, List.flatMap_nil, List.append_nil]
    exact h
  | cons e events ih =>
    rw [settlesOf, List.flatMap_cons, ← List.append_assoc]
    exact ih (apply_current h hmeets.1) hmeets.2

theorem new_current (table : MediaTable) (needsExact : Bool) :
    Current (Variant.new table needsExact) [] := by
  intro idx len _ hlast
  cases hlast

/-- A settle that does not meet the condition is undone by the reset that follows it. -/
theorem unmet_lost {v : Variant} {idx len : ℕ} (hidx : idx < v.table.segments.length)
    (hunmet : ¬ Meets v (.settle (.segment idx) len)) :
    ¬ Holds (apply (apply v (.settle (.segment idx) len)) .reset) idx len := by
  simp only [Meets, not_forall] at hunmet
  obtain ⟨_, happlied, parked, hparked, hne⟩ := hunmet
  have hwaiting : v.deferredPrefix ≠ [] := by
    intro hempty
    rw [hempty] at hparked
    cases hparked
  have hv : apply v (.settle (.segment idx) len) = v.applyCommit (.segment idx) len := rfl
  rw [hv, applyCommit_applied happlied]
  generalize hw : ({ v with
    layout := (v.layout.applyCommit v.table fun t =>
      Variant.applyLoadedSize t (.segment idx) len).1
    table := Variant.applyLoadedSize v.table (.segment idx) len } : Variant) = w
  have hdeferred : w.deferredPrefix = v.deferredPrefix := by rw [← hw]
  have hcount : idx < w.table.segments.length := by
    rw [← hw]
    exact (applyLoadedSize_length v.table (.segment idx) len).symm ▸ hidx
  have hruns : w.layoutSeekInvariant = false := by
    cases hr : w.layoutSeekInvariant with
    | false => rfl
    | true => exact absurd (hdeferred.symm.trans (skipped_empty hr)) hwaiting
  show ¬ Holds w.resetLayoutToFullRange idx len
  rw [reset_ran hruns]
  show ¬ (Variant.drain w.deferredPrefix w.table).segments[idx]? = _
  rw [drain_segment, hdeferred, hparked, Option.elim_some, List.getElem?_eq_getElem hcount,
    Option.map_some]
  intro heq
  exact hne (SegmentSize.mk.inj (Option.some.inj heq)).1

/-- In every run: a media settle behind a live tail moves no segment, and nothing stays parked
after a reset. While each settle that is not parked agrees with what is parked last for its
segment, no length is lost and a reset leaves every settled segment its last one; a settle that
does not agree is lost at a reset right after it. -/
theorem settles_kept (table : MediaTable) (events : List Event) :
    (∀ idx len other, (run (Variant.new table false) events).segmentAwareTail ≠ noSeekTail →
      idx < (run (Variant.new table false) events).segmentAwareTail →
      (apply (run (Variant.new table false) events)
        (.settle (.segment idx) len)).layout.segmentByteOffset other =
          (run (Variant.new table false) events).layout.segmentByteOffset other) ∧
    (apply (run (Variant.new table false) events) .reset).deferredPrefix = [] ∧
    (MeetsAll (Variant.new table false) events → ∀ idx len, idx < table.segments.length →
      latest idx (settlesOf events) = some len →
      (Holds (run (Variant.new table false) events) idx len ∨
        (idx, len) ∈ (run (Variant.new table false) events).deferredPrefix) ∧
      Holds (apply (run (Variant.new table false) events) .reset) idx len) ∧
    (∀ idx len, idx < table.segments.length →
      ¬ Meets (run (Variant.new table false) events) (.settle (.segment idx) len) →
      ¬ Holds (apply (apply (run (Variant.new table false) events) (.settle (.segment idx) len))
        .reset) idx len) := by
  have hnew : Canonical (Variant.new table false).layout (Variant.new table false).table :=
    new_canonical table
  have hpublished := run_published hnew events
  refine ⟨fun idx len other hlive hbehind => settle_behind_tail hpublished hlive hbehind other,
    apply_reset_empty _, ?_, ?_⟩
  · intro hmeets idx len hidx hlast
    have hcurrent := run_current (new_current table false) hmeets
    rw [List.nil_append] at hcurrent
    have hcount : idx < (run (Variant.new table false) events).table.segments.length := by
      rw [run_length]
      exact hidx
    refine ⟨?_, reset_holds hcurrent hcount hlast⟩
    rcases hcurrent idx len hcount hlast with hparked | ⟨_, hholds⟩
    · exact .inr (latest_mem hparked)
    · exact .inl hholds
  · intro idx len hidx hunmet
    refine unmet_lost ?_ hunmet
    rw [run_length]
    exact hidx

/-- Segment 3 settles behind the tail, the tail moves before it, and it settles again. -/
def resettled : List Event :=
  [.setTail 5, .settle (.segment 3) 100, .setTail 2, .settle (.segment 3) 50, .reset]

def sixSegments : MediaTable := ⟨none, List.replicate 6 (.placeholder 10)⟩

theorem resettled_undone : latest 3 (settlesOf resettled) = some 50 ∧
    (run (Variant.new sixSegments false) resettled).table.segments[3]? = some ⟨100, 100, true⟩ := by
  decide

end SeekTail

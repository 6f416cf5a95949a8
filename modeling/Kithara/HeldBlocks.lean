import Mathlib.Data.List.Basic
import Mathlib.Algebra.BigOperators.Group.List.Basic
import Mathlib.Algebra.GroupWithZero.Nat

/-! Blocks of items behind a holdback: how many front blocks may leave while the last items stay,
and how the last items are dropped block by block when the end comes. -/
namespace HeldBlocks

variable {α β ε : Type}

def spelled (items : α → List β) (blocks : List α) : List β := blocks.flatMap items

def total (size : α → ℕ) (blocks : List α) : ℕ := (blocks.map size).sum

/-- How many front blocks may leave while at least `held` items stay. -/
def ripe (size : α → ℕ) (held : ℕ) : ℕ → List α → ℕ
  | _, [] => 0
  | remaining, block :: rest =>
    if remaining - size block < held then 0 else ripe size held (remaining - size block) rest + 1

/-- Drops the last items, the newest block first: whole blocks while they fit, then a cut. -/
def dropNewest (size : α → ℕ) (cut : α → ℕ → Except ε α) :
    List α → ℕ → Except ε Unit × List α
  | [], _ => (.ok (), [])
  | block :: older, dropped =>
    if dropped = 0 then (.ok (), block :: older)
    else if size block ≤ dropped then dropNewest size cut older (dropped - size block)
    else
      match cut block dropped with
      | .ok kept => (.ok (), kept :: older)
      | .error e => (.error e, block :: older)

@[simp] theorem total_nil (size : α → ℕ) : total size [] = 0 := rfl

@[simp] theorem total_cons (size : α → ℕ) (block : α) (rest : List α) :
    total size (block :: rest) = size block + total size rest := by
  simp [total]

@[simp] theorem total_append (size : α → ℕ) (front back : List α) :
    total size (front ++ back) = total size front + total size back := by
  simp [total]

@[simp] theorem total_reverse (size : α → ℕ) (blocks : List α) :
    total size blocks.reverse = total size blocks := by
  simp [total]

@[simp] theorem spelled_nil (items : α → List β) : spelled items [] = [] := rfl

@[simp] theorem spelled_cons (items : α → List β) (block : α) (rest : List α) :
    spelled items (block :: rest) = items block ++ spelled items rest := rfl

@[simp] theorem spelled_append (items : α → List β) (front back : List α) :
    spelled items (front ++ back) = spelled items front ++ spelled items back := by
  simp [spelled]

theorem length_spelled {items : α → List β} {size : α → ℕ}
    (hsize : ∀ block, (items block).length = size block) (blocks : List α) :
    (spelled items blocks).length = total size blocks := by
  induction blocks with
  | nil => rfl
  | cons block rest ih => simp [hsize, ih]

theorem ripe_holds (size : α → ℕ) (held : ℕ) {remaining : ℕ} {blocks : List α}
    (hcount : remaining = total size blocks) :
    ripe size held remaining blocks = 0 ∨
      held ≤ total size (blocks.drop (ripe size held remaining blocks)) := by
  induction blocks generalizing remaining with
  | nil => exact .inl rfl
  | cons block rest ih =>
    subst hcount
    simp only [ripe, total_cons, Nat.add_sub_cancel_left]
    split
    · exact .inl rfl
    · next hroom =>
      right
      rcases ih rfl with hnone | hheld
      · simpa [hnone] using hroom
      · simpa using hheld

theorem ripe_front (size : α → ℕ) (held : ℕ) {remaining : ℕ} {blocks rest : List α} {front : α}
    (hcount : remaining = total size blocks)
    (hstays : blocks.drop (ripe size held remaining blocks) = front :: rest) :
    total size rest < held := by
  induction blocks generalizing remaining with
  | nil => simp at hstays
  | cons block later ih =>
    subst hcount
    simp only [ripe, total_cons, Nat.add_sub_cancel_left] at hstays
    split at hstays
    · next hfull =>
      obtain ⟨rfl, rfl⟩ := List.cons.inj hstays
      exact hfull
    · exact ih rfl (by simpa using hstays)

section Dropping

variable {items : α → List β} {size : α → ℕ} {cut : α → ℕ → Except ε α}

def CutsEnd (items : α → List β) (size : α → ℕ) (cut : α → ℕ → Except ε α) (block : α) : Prop :=
  ∀ dropped kept, 0 < dropped → dropped < size block → cut block dropped = .ok kept →
    items kept = (items block).take (size block - dropped)

/-- Success keeps all but the dropped items; a refused cut has lost none of the items to keep. -/
theorem dropNewest_spelled (hsize : ∀ block, (items block).length = size block)
    {blocks left : List α} {dropped : ℕ} {result : Except ε Unit}
    (hcut : ∀ block ∈ blocks, CutsEnd items size cut block)
    (hrun : dropNewest size cut blocks dropped = (result, left)) :
    (result = .ok () → spelled items left.reverse =
      (spelled items blocks.reverse).take (total size blocks - dropped)) ∧
    (spelled items blocks.reverse).take (total size blocks - dropped) <+:
      spelled items left.reverse ∧
    spelled items left.reverse <+: spelled items blocks.reverse := by
  induction blocks generalizing dropped with
  | nil =>
    obtain ⟨rfl, rfl⟩ := Prod.mk.inj hrun
    simp
  | cons block older ih =>
    have hlength := length_spelled hsize older.reverse
    rw [total_reverse] at hlength
    simp only [dropNewest] at hrun
    split at hrun
    · next hnone =>
      obtain ⟨rfl, rfl⟩ := Prod.mk.inj hrun
      have hall : (spelled items (block :: older).reverse).take
          (total size (block :: older) - dropped) = spelled items (block :: older).reverse := by
        refine List.take_of_length_le (Nat.le_of_eq ?_)
        rw [length_spelled hsize, total_reverse, hnone, Nat.sub_zero]
      rw [hall]
      exact ⟨fun _ => rfl, List.prefix_rfl, List.prefix_rfl⟩
    · next hsome =>
      split at hrun
      · next hwhole =>
        have hkept : (spelled items (block :: older).reverse).take
            (total size (block :: older) - dropped) =
              (spelled items older.reverse).take (total size older - (dropped - size block)) := by
          rw [List.reverse_cons, spelled_append, total_cons, List.take_append_of_le_length
            (by omega)]
          exact congrArg (List.take · _) (by omega)
        obtain ⟨hok, hleast, hmost⟩ := ih (fun b hb => hcut b (List.mem_cons_of_mem _ hb)) hrun
        rw [hkept]
        refine ⟨hok, hleast, hmost.trans ?_⟩
        rw [List.reverse_cons, spelled_append]
        exact List.prefix_append _ _
      · next hpart =>
        have hkeep : total size (block :: older) - dropped =
            (spelled items older.reverse).length + (size block - dropped) := by
          rw [total_cons, hlength]
          omega
        have hsplit : (spelled items (block :: older).reverse).take
            (total size (block :: older) - dropped) =
              spelled items older.reverse ++ (items block).take (size block - dropped) := by
          rw [List.reverse_cons, spelled_append, hkeep, List.take_length_add_append]
          simp
        rw [hsplit]
        split at hrun
        · next kept hkept =>
          obtain ⟨rfl, rfl⟩ := Prod.mk.inj hrun
          have hitems := hcut block List.mem_cons_self dropped kept (Nat.pos_of_ne_zero hsome)
            (by omega) hkept
          have hleft : spelled items (kept :: older).reverse =
              spelled items older.reverse ++ (items block).take (size block - dropped) := by
            simp [hitems]
          rw [hleft]
          refine ⟨fun _ => rfl, List.prefix_rfl, ?_⟩
          rw [List.reverse_cons, spelled_append]
          simpa using List.take_prefix _ _
        · obtain ⟨rfl, rfl⟩ := Prod.mk.inj hrun
          refine ⟨by simp, ?_, List.prefix_rfl⟩
          rw [List.reverse_cons, spelled_append]
          simpa using List.take_prefix _ _

theorem dropNewest_split {blocks left : List α} {dropped : ℕ} {result : Except ε Unit}
    (hrun : dropNewest size cut blocks dropped = (result, left)) :
    ∃ gone, blocks = gone ++ left ∨ ∃ block older kept k, blocks = gone ++ block :: older ∧
      left = kept :: older ∧ 0 < k ∧ k < size block ∧ cut block k = .ok kept := by
  induction blocks generalizing dropped with
  | nil =>
    obtain ⟨rfl, rfl⟩ := Prod.mk.inj hrun
    exact ⟨[], .inl rfl⟩
  | cons block older ih =>
    simp only [dropNewest] at hrun
    split at hrun
    · obtain ⟨rfl, rfl⟩ := Prod.mk.inj hrun
      exact ⟨[], .inl rfl⟩
    · next hsome =>
      split at hrun
      · obtain ⟨gone, rfl | ⟨next, rest, kept, k, rfl, hcut⟩⟩ := ih hrun
        · exact ⟨block :: gone, .inl rfl⟩
        · exact ⟨block :: gone, .inr ⟨next, rest, kept, k, rfl, hcut⟩⟩
      · next hpart =>
        split at hrun
        · next kept hkept =>
          obtain ⟨rfl, rfl⟩ := Prod.mk.inj hrun
          exact ⟨[], .inr ⟨block, older, kept, dropped, rfl, rfl, by omega, by omega, hkept⟩⟩
        · obtain ⟨rfl, rfl⟩ := Prod.mk.inj hrun
          exact ⟨[], .inl rfl⟩

theorem dropNewest_mem {P : α → Prop} {blocks left : List α} {dropped : ℕ}
    {result : Except ε Unit} (hblocks : ∀ block ∈ blocks, P block)
    (hcut : ∀ block ∈ blocks, ∀ dropped kept, 0 < dropped → dropped < size block →
      cut block dropped = .ok kept → P kept)
    (hrun : dropNewest size cut blocks dropped = (result, left)) : ∀ block ∈ left, P block := by
  obtain ⟨gone, rfl | ⟨block, older, kept, k, rfl, rfl, hpos, hk, hkept⟩⟩ := dropNewest_split hrun
  · exact fun b hb => hblocks b (List.mem_append_right _ hb)
  · intro b hb
    rcases List.mem_cons.mp hb with rfl | hb
    · exact hcut block (by simp) k b hpos hk hkept
    · exact hblocks b (by simp [hb])

/-- Dropping is refused only by the cut of the block that the last kept item lies in. -/
theorem dropNewest_ok {blocks : List α} {dropped : ℕ}
    (hcut : ∀ newer block older, blocks = newer ++ block :: older →
      total size newer < dropped → dropped < total size newer + size block →
      ∃ kept, cut block (dropped - total size newer) = .ok kept) :
    ∃ left, dropNewest size cut blocks dropped = (.ok (), left) := by
  induction blocks generalizing dropped with
  | nil => exact ⟨[], rfl⟩
  | cons block older ih =>
    simp only [dropNewest]
    split
    · exact ⟨_, rfl⟩
    · next hsome =>
      split
      · next hwhole =>
        refine ih fun newer next rest hblocks hbelow habove => ?_
        have h := hcut (block :: newer) next rest (by rw [hblocks]; rfl)
          (by rw [total_cons]; omega) (by rw [total_cons]; omega)
        rwa [total_cons, Nat.sub_add_eq] at h
      · next hpart =>
        obtain ⟨kept, hkept⟩ := hcut [] block older rfl (by simp; omega) (by simp; omega)
        rw [total_nil, Nat.sub_zero] at hkept
        rw [hkept]
        exact ⟨_, rfl⟩

end Dropping

end HeldBlocks

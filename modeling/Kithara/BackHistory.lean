import Kithara.ShuffleCycles
import Kithara.TransitionSystem
import Mathlib.Data.List.Chain
import Mathlib.Data.List.Infix

/-! Going back through a queue's history: what walking back answers after any run of selections,
back steps and removals. -/
namespace Navigation

open TransitionSystem

/-- The list before its last entry that satisfies `present`. -/
def beforeLast (present : TrackId → Bool) (past : List TrackId) : List TrackId :=
  (past.reverse.dropWhile fun id => !present id).tail.reverse

/-- A queue being walked through. `past` lists the tracks left by selections and not walked back
over, oldest first; `selections` counts the selections. Neither is read. -/
structure Walker where
  nav : NavigationState
  tracks : List TrackId
  current : Option TrackId
  past : List TrackId
  selections : ℕ

inductive Move where
  | select (id : TrackId) (reason : AdvanceReason)
  | back
  | remove (left : List TrackId)
  deriving DecidableEq

namespace Walker

variable (R : Rng)

def select (w : Walker) (id : TrackId) (reason : AdvanceReason) : Walker where
  nav := w.nav.commit R w.current id reason w.tracks
  tracks := w.tracks
  current := some id
  past := w.past ++ (w.current.filter fun current => current != id).toList
  selections := w.selections + 1

/-- A committed step back, to the track that `prev` answers. -/
def back (w : Walker) : Walker :=
  match w.nav.prev w.tracks with
  | none => w
  | some id =>
    { w with
      nav := w.nav.commit R w.current id .userPrev w.tracks
      current := some id
      past := beforeLast (fun id => w.tracks.contains id) w.past }

def remove (w : Walker) (left : List TrackId) : Walker :=
  { w with nav := w.nav.reconcile left, tracks := left }

def backs (w : Walker) : ℕ → Walker
  | 0 => w
  | n + 1 => (backs w n).back R

def answers (w : Walker) : ℕ → List TrackId
  | 0 => []
  | fuel + 1 =>
    match w.nav.prev w.tracks with
    | none => []
    | some id => id :: (w.back R).answers fuel

def present (w : Walker) (ids : List TrackId) : List TrackId :=
  ids.filter fun id => w.tracks.contains id

end Walker

/-- Selections, committed back steps and removals, in any order. -/
def walking (R : Rng) : Machine Walker Move where
  Enabled w
    | .select id reason => id ∈ w.tracks ∧ reason ≠ .userPrev
    | .back => True
    | .remove left => ∀ id ∈ left, id ∈ w.tracks
  next w
    | .select id reason => w.select R id reason
    | .back => w.back R
    | .remove left => w.remove left

/-- What back navigation promises in a state: the bound, and of the whole walk back from it that no
answer is the track that sounds, and that the answers are the tracks left and still present, last
left first. Only tracks that the bound pushed out are missing at the end. -/
structure Promised (R : Rng) (w : Walker) : Prop where
  bounded : w.nav.history.length ≤ w.nav.historyLimit
  apart : ∀ n id, (w.backs R n).nav.prev w.tracks = some id → (w.backs R n).current ≠ some id
  reversed : w.answers R w.nav.history.length <+: (w.present w.past).reverse
  complete : w.selections ≤ w.nav.historyLimit →
    w.answers R w.nav.history.length = (w.present w.past).reverse

/-- What stays of the history when the current track is left. -/
def Walker.staying (w : Walker) : List TrackId :=
  if w.current.isSome = true ∧ w.nav.history.getLast? ≠ w.current ∧
      w.nav.historyLimit ≤ w.nav.history.length then w.nav.history.tail
  else w.nav.history

/-- A step that keeps the promise. A selection needs room for the track it leaves, and one out of a
track that is gone is not of the track the history then ends with; a removal leaves no two equal
neighbours among the tracks left and the current one. -/
def Keeps (w : Walker) : Move → Prop
  | .select id _ =>
    (0 < w.nav.historyLimit ∨ w.current = none ∨ w.current = some id) ∧
      ((∀ current ∈ w.tracks, w.current ≠ some current) →
        (w.present w.staying).getLast? ≠ some id)
  | .back => True
  | .remove left =>
    (((w.nav.history ++ w.current.toList).filter fun id => left.contains id)).IsChain (· ≠ ·)

instance (R : Rng) (w : Walker) (move : Move) : Decidable ((walking R).Enabled w move) := by
  cases move with
  | select id reason => exact inferInstanceAs (Decidable (id ∈ w.tracks ∧ reason ≠ .userPrev))
  | back => exact isTrue trivial
  | remove left => exact List.decidableBAll (fun id => id ∈ w.tracks) left

instance (w : Walker) (move : Move) : Decidable (Keeps w move) := by
  cases move with
  | select id reason =>
    have := List.decidableBAll (fun current => w.current ≠ some current) w.tracks
    exact inferInstanceAs (Decidable (_ ∧ _))
  | back => exact isTrue trivial
  | remove left => exact inferInstanceAs (Decidable (List.IsChain _ _))

theorem filter_dropWhile_not (p : TrackId → Bool) (ids : List TrackId) :
    (ids.dropWhile fun id => !p id).tail.filter p = (ids.filter p).tail := by
  induction ids with
  | nil => rfl
  | cons id ids ih =>
    cases h : p id with
    | true => simp [h]
    | false => simpa [h] using ih

theorem beforeLast_filter (p : TrackId → Bool) (past : List TrackId) :
    (beforeLast p past).filter p = (past.filter p).dropLast := by
  rw [beforeLast, List.filter_reverse, filter_dropWhile_not, List.filter_reverse,
    List.tail_reverse, List.reverse_reverse]

namespace NavigationState

theorem truncateAt_filter {p : TrackId → Bool} {history : List TrackId} {id : TrackId}
    (h : (history.filter p).getLast? = some id) :
    (truncateAt history id).filter p = (history.filter p).dropLast ∧
      (truncateAt history id).length ≤ history.length := by
  rw [List.getLast?_filter, List.find?_eq_some_iff_append] at h
  obtain ⟨holds, later, before, split, absent⟩ := h
  have parts : history = before.reverse ++ id :: later.reverse := by
    rw [← List.reverse_reverse history, split]
    simp
  have fresh : id ∉ later := fun hid => by simpa [holds] using absent id hid
  have cut : truncateAt history id = before.reverse := by
    have inside : id ∈ history := by simp [parts]
    have place : history.reverse.idxOf id = later.length := by
      rw [split, List.idxOf_append_of_notMem fresh, List.idxOf_cons_self, Nat.add_zero]
    have size : history.length - 1 - later.length = before.reverse.length := by
      rw [parts]
      simp only [List.length_append, List.length_cons, List.length_reverse]
      omega
    rw [truncateAt, if_pos inside, place, size, parts, List.take_left]
  have none_later : later.reverse.filter p = [] :=
    List.filter_eq_nil_iff.mpr fun other hother => by
      simpa using absent other (List.mem_reverse.mp hother)
  constructor
  · rw [cut, parts, List.filter_append, List.filter_cons_of_pos holds, none_later,
      List.dropLast_concat]
  · rw [cut, parts]
    simp only [List.length_append, List.length_cons]
    omega

theorem prev_eq (s : NavigationState) (tracks : List TrackId) :
    s.prev tracks = (s.history.filter fun id => tracks.contains id).getLast? :=
  List.getLast?_filter.symm

theorem commit_history (R : Rng) (s : NavigationState) (source : Option TrackId) (id : TrackId)
    (reason : AdvanceReason) (tracks : List TrackId) :
    (s.commit R source id reason tracks).history = (s.leave source id reason).history ∧
      (s.commit R source id reason tracks).historyLimit = s.historyLimit := by
  have limit : (s.leave source id reason).historyLimit = s.historyLimit := by rw [leave_frame]
  unfold commit
  dsimp only
  split
  · split
    · exact ⟨rfl, limit⟩
    · exact ⟨rfl, limit⟩
  · exact ⟨rfl, limit⟩

end NavigationState

namespace Walker

variable (R : Rng) {w : Walker}

theorem prev_present (w : Walker) :
    w.nav.prev w.tracks = (w.present w.nav.history).getLast? := w.nav.prev_eq w.tracks

theorem back_none (h : (w.present w.nav.history) = []) : w.back R = w := by
  have : w.nav.prev w.tracks = none := by rw [prev_present, h]; rfl
  simp only [back, this]

theorem back_some {id : TrackId} (h : w.nav.prev w.tracks = some id) :
    (w.back R).current = some id ∧ (w.back R).tracks = w.tracks ∧
      (w.back R).selections = w.selections ∧
      (w.back R).nav.historyLimit = w.nav.historyLimit ∧
      (w.back R).nav.history.length ≤ w.nav.history.length ∧
      w.present (w.back R).nav.history = (w.present w.nav.history).dropLast ∧
      w.present (w.back R).past = (w.present w.past).dropLast := by
  have stepped : w.back R = { w with
      nav := w.nav.commit R w.current id .userPrev w.tracks
      current := some id
      past := beforeLast (fun id => w.tracks.contains id) w.past } := by
    simp only [back, h]
  rw [prev_present] at h
  obtain ⟨kept, shorter⟩ := NavigationState.truncateAt_filter h
  have history := NavigationState.commit_history R w.nav w.current id .userPrev w.tracks
  have left : (w.nav.leave w.current id .userPrev).history =
      NavigationState.truncateAt w.nav.history id := rfl
  rw [left] at history
  rw [stepped]
  refine ⟨rfl, rfl, rfl, history.2, history.1.symm ▸ shorter, ?_, beforeLast_filter _ _⟩
  exact (congrArg w.present history.1).trans kept

theorem back_tracks (w : Walker) : (w.back R).tracks = w.tracks := by
  cases h : w.nav.prev w.tracks with
  | none => simp only [back, h]
  | some id => exact (back_some R h).2.1

theorem back_present (w : Walker) :
    w.present (w.back R).nav.history = (w.present w.nav.history).dropLast := by
  cases h : w.nav.prev w.tracks with
  | some id => exact (back_some R h).2.2.2.2.2.1
  | none =>
    rw [prev_present, List.getLast?_eq_none_iff] at h
    rw [back_none R h, h]
    rfl

theorem backs_succ (w : Walker) (n : ℕ) : w.backs R (n + 1) = (w.back R).backs R n := by
  induction n with
  | zero => rfl
  | succ n ih => exact congrArg (Walker.back R) ih

theorem present_back (w : Walker) (ids : List TrackId) :
    (w.back R).present ids = w.present ids := by
  rw [present, present, back_tracks]

theorem answers_eq (w : Walker) {fuel : ℕ} (h : (w.present w.nav.history).length ≤ fuel) :
    w.answers R fuel = (w.present w.nav.history).reverse := by
  induction fuel generalizing w with
  | zero =>
    rw [List.length_eq_zero_iff.mp (Nat.le_zero.mp h)]
    rfl
  | succ fuel ih =>
    cases hp : w.nav.prev w.tracks with
    | none =>
      simp only [answers, hp]
      rw [prev_present, List.getLast?_eq_none_iff] at hp
      rw [hp]
      rfl
    | some id =>
      have shorter : ((w.back R).present (w.back R).nav.history).length ≤ fuel := by
        rw [present_back, back_present, List.length_dropLast]
        omega
      simp only [answers, hp]
      rw [ih _ shorter, present_back, back_present]
      rw [prev_present] at hp
      conv_rhs => rw [← List.dropLast_append_getLast? id hp]
      rw [List.reverse_append]
      rfl

def sounding (w : Walker) : List TrackId := w.present w.current.toList

theorem sounding_gone (h : ∀ current ∈ w.tracks, w.current ≠ some current) :
    w.sounding = [] := by
  refine List.filter_eq_nil_iff.mpr fun id hid inside => ?_
  rw [Option.mem_toList] at hid
  exact h id (by simpa using inside) hid

theorem sounding_present {current : TrackId} (h : w.current = some current)
    (inside : current ∈ w.tracks) : w.sounding = [current] := by
  rw [sounding, h, Option.toList_some, present,
    List.filter_cons_of_pos (by simpa using inside), List.filter_nil]

theorem chain_sounding (w : Walker) (ids : List TrackId) :
    (ids ++ w.sounding).IsChain (· ≠ ·) ↔ ids.IsChain (· ≠ ·) ∧
      ∀ current ∈ w.tracks, w.current = some current → ids.getLast? ≠ some current := by
  by_cases gone : ∀ current ∈ w.tracks, w.current ≠ some current
  · rw [sounding_gone gone, List.append_nil]
    exact ⟨fun h => ⟨h, fun c hc same => absurd same (gone c hc)⟩, And.left⟩
  · push Not at gone
    obtain ⟨current, inside, same⟩ := gone
    rw [sounding_present same inside, List.isChain_append]
    constructor
    · rintro ⟨chain, -, apart⟩
      refine ⟨chain, fun c _ hc last => ?_⟩
      have := Option.some.inj (same.symm.trans hc)
      exact apart c last current rfl this.symm
    · rintro ⟨chain, apart⟩
      refine ⟨chain, .singleton _, fun last hlast c hc => ?_⟩
      rw [List.head?_cons, Option.mem_some_iff] at hc
      subst hc
      rintro rfl
      exact apart last inside same hlast

theorem apart_iff (w : Walker) :
    (∀ n id, (w.backs R n).nav.prev w.tracks = some id → (w.backs R n).current ≠ some id) ↔
      (w.present w.nav.history ++ w.sounding).IsChain (· ≠ ·) := by
  obtain ⟨size, hsize⟩ : ∃ size, (w.present w.nav.history).length = size := ⟨_, rfl⟩
  induction size generalizing w with
  | zero =>
    have empty := List.length_eq_zero_iff.mp hsize
    have still : ∀ n, w.backs R n = w := by
      intro n
      induction n with
      | zero => rfl
      | succ n ih => exact (congrArg (Walker.back R) ih).trans (back_none R empty)
    refine iff_of_true (fun n id h => ?_) ?_
    · rw [still n, prev_present, empty] at h
      cases h
    · rw [chain_sounding, empty]
      exact ⟨.nil, fun _ _ _ => Option.some_ne_none _ |>.symm⟩
  | succ size ih =>
    have some_entry : w.present w.nav.history ≠ [] := by
      intro empty
      simp [empty] at hsize
    obtain ⟨init, id, split⟩ := List.eq_nil_or_concat' _ |>.resolve_left some_entry
    have hp : w.nav.prev w.tracks = some id := by rw [prev_present, split]; simp
    obtain ⟨current, tracks, -, -, -, history, -⟩ := back_some R hp
    have inside : w.tracks.contains id = true :=
      (List.mem_filter.mp (split ▸ List.mem_append_right init List.mem_cons_self :
        id ∈ w.present w.nav.history)).2
    have rest : (w.back R).present (w.back R).nav.history = init := by
      rw [present_back, history, split, List.dropLast_concat]
    have sounds : (w.back R).sounding = [id] := by
      simp only [sounding, present, current, tracks, Option.toList_some]
      rw [List.filter_cons_of_pos inside, List.filter_nil]
    have walk := ih (w.back R) (by rw [rest]; simpa [split] using hsize)
    rw [rest, sounds] at walk
    have one_more : (∀ n id, (w.backs R n).nav.prev w.tracks = some id →
        (w.backs R n).current ≠ some id) ↔ w.current ≠ some id ∧ ∀ n id,
          ((w.back R).backs R n).nav.prev (w.back R).tracks = some id →
            ((w.back R).backs R n).current ≠ some id := by
      constructor
      · intro all
        refine ⟨all 0 id hp, fun n other => ?_⟩
        rw [tracks, ← backs_succ]
        exact all (n + 1) other
      · rintro ⟨first, later⟩ n other answer
        cases n with
        | zero =>
          rw [show (w.backs R 0).nav.prev w.tracks = some id from hp] at answer
          exact Option.some.inj answer ▸ first
        | succ n =>
          rw [backs_succ] at answer ⊢
          exact later n other (tracks ▸ answer)
    rw [one_more, walk, split, chain_sounding, and_comm, List.getLast?_concat]
    refine and_congr_right fun _ => ?_
    constructor
    · exact fun other current _ same last => other (same.trans last.symm)
    · exact fun all same => all id (by simpa using inside) same rfl

end Walker

variable (R : Rng) {w : Walker}

/-- The promise, said of the history instead of the walk. -/
structure Kept (w : Walker) : Prop where
  bounded : w.nav.history.length ≤ w.nav.historyLimit
  apart : (w.present w.nav.history ++ w.sounding).IsChain (· ≠ ·)
  recent : w.present w.nav.history <:+ w.present w.past
  whole : w.selections ≤ w.nav.historyLimit → w.present w.nav.history = w.present w.past

theorem promised_iff (w : Walker) : Promised R w ↔ Kept w := by
  have walk := w.answers_eq R (List.length_filter_le _ w.nav.history)
  constructor
  · intro h
    refine ⟨h.bounded, (w.apart_iff R).mp h.apart, ?_, fun few => ?_⟩
    · exact List.reverse_prefix.mp (walk ▸ h.reversed)
    · exact List.reverse_injective (walk ▸ h.complete few)
  · intro h
    refine ⟨h.bounded, (w.apart_iff R).mpr h.apart, ?_, fun few => ?_⟩
    · exact walk ▸ List.reverse_prefix.mpr h.recent
    · rw [walk, h.whole few]

theorem suffix_dropLast {ids past : List TrackId} (h : ids <:+ past) :
    ids.dropLast <:+ past.dropLast := by
  obtain ⟨lost, rfl⟩ := h
  cases ids with
  | nil => exact List.nil_suffix
  | cons id ids => exact ⟨lost, (List.dropLast_append_of_ne_nil (List.cons_ne_nil _ _)).symm⟩

theorem kept_back (h : Kept w) : Kept (w.back R) := by
  cases hp : w.nav.prev w.tracks with
  | none =>
    have : w.back R = w := by simp only [Walker.back, hp]
    exact this.symm ▸ h
  | some id =>
    obtain ⟨current, tracks, selections, limit, shorter, history, past⟩ := Walker.back_some R hp
    rw [Walker.prev_present] at hp
    have split := List.dropLast_append_getLast? id hp
    have inside : id ∈ w.tracks := by
      have := (List.mem_filter.mp (List.mem_of_getLast? hp)).2
      simpa using this
    have sounds : (w.back R).sounding = [id] :=
      Walker.sounding_present current (tracks.symm ▸ inside)
    refine ⟨limit.symm ▸ shorter.trans h.bounded, ?_, ?_, ?_⟩
    · rw [Walker.present_back, history, sounds, split]
      exact h.apart.left_of_append
    · rw [Walker.present_back, Walker.present_back, history, past]
      exact suffix_dropLast h.recent
    · intro few
      rw [Walker.present_back, Walker.present_back, history, past, h.whole (limit ▸ selections ▸ few)]

theorem kept_remove (h : Kept w) {left : List TrackId} (inside : ∀ id ∈ left, id ∈ w.tracks) :
    Kept (w.remove left) ↔ Keeps w (.remove left) := by
  have again : ∀ ids : List TrackId, (w.remove left).present ids =
      (w.present ids).filter fun id => left.contains id := by
    intro ids
    rw [Walker.present, Walker.present, List.filter_filter]
    refine List.filter_congr fun id _ => ?_
    by_cases hid : id ∈ left
    · simp [Walker.remove, hid, inside id hid]
    · simp [Walker.remove, hid]
  have twice : (w.remove left).present (w.remove left).nav.history =
      (w.remove left).present w.nav.history := by
    simp only [Walker.present, Walker.remove, NavigationState.reconcile, List.filter_filter,
      Bool.and_self]
  have chain : (w.remove left).present (w.remove left).nav.history ++ (w.remove left).sounding =
      (w.nav.history ++ w.current.toList).filter fun id => left.contains id := by
    rw [twice, List.filter_append]
    rfl
  constructor
  · intro kept
    have apart := kept.apart
    rwa [chain] at apart
  · intro apart
    refine ⟨(List.length_filter_le _ _).trans h.bounded, by rw [chain]; exact apart, ?_,
      fun few => ?_⟩
    · rw [twice, again, again]
      exact h.recent.filter _
    · rw [twice, again, again]
      exact congrArg _ (h.whole few)

theorem select_history (w : Walker) (id : TrackId) {reason : AdvanceReason}
    (hr : reason ≠ .userPrev) :
    (w.select R id reason).nav.historyLimit = w.nav.historyLimit ∧
    ((w.current.filter fun current => current != id) = none →
      (w.select R id reason).nav.history = w.nav.history) ∧
    ∀ current, (w.current.filter fun current => current != id) = some current →
      (w.nav.history.getLast? = some current →
        (w.select R id reason).nav.history = w.nav.history) ∧
      (w.nav.history.getLast? ≠ some current →
        (w.select R id reason).nav.history = w.staying ++ [current]) := by
  have committed := NavigationState.commit_history R w.nav w.current id reason w.tracks
  have history : (w.select R id reason).nav.history = (w.nav.leave w.current id reason).history :=
    committed.1
  refine ⟨committed.2, fun stays => ?_, fun current left => ⟨fun top => ?_, fun top => ?_⟩⟩
  · rw [history, NavigationState.leave, if_neg hr, stays]
  · rw [history, NavigationState.leave, if_neg hr, left]
    dsimp only
    rw [NavigationState.pushHistory, if_pos top]
  · obtain ⟨same, -⟩ := Option.filter_eq_some_iff.mp left
    rw [history, NavigationState.leave, if_neg hr, left]
    dsimp only
    rw [NavigationState.pushHistory, if_neg top, Walker.staying, same]
    by_cases full : w.nav.historyLimit ≤ w.nav.history.length
    · rw [if_pos full, if_pos ⟨rfl, top, full⟩]
    · rw [if_neg full, if_neg fun h => full h.2.2]

theorem chain_selected {id : TrackId} (inside : id ∈ w.tracks) (reason : AdvanceReason)
    (ids : List TrackId) : (ids ++ (w.select R id reason).sounding).IsChain (· ≠ ·) ↔
      ids.IsChain (· ≠ ·) ∧ ids.getLast? ≠ some id := by
  rw [Walker.chain_sounding]
  refine and_congr_right fun _ => ⟨fun all => all id inside rfl, fun last current _ same => ?_⟩
  exact Option.some.inj same ▸ last

theorem kept_select_same (h : Kept w) {id : TrackId} (inside : id ∈ w.tracks)
    {reason : AdvanceReason} (hr : reason ≠ .userPrev)
    (history : (w.select R id reason).nav.history = w.nav.history)
    (past : w.present (w.select R id reason).past = w.present w.past) :
    Kept (w.select R id reason) ↔ (w.present w.nav.history).getLast? ≠ some id := by
  have limit := (select_history R w id hr).1
  have view : (w.select R id reason).present (w.select R id reason).nav.history =
      w.present w.nav.history := congrArg w.present history
  constructor
  · intro kept
    have apart := kept.apart
    rw [view, chain_selected R inside] at apart
    exact apart.2
  · intro last
    refine ⟨?_, ?_, ?_, fun few => ?_⟩
    · rw [history, limit]
      exact h.bounded
    · rw [view, chain_selected R inside]
      exact ⟨h.apart.left_of_append, last⟩
    · rw [view]
      exact past.symm ▸ h.recent
    · rw [limit] at few
      rw [view]
      exact (h.whole (Nat.le_of_succ_le few)).trans past.symm

theorem staying_suffix (w : Walker) : w.staying <:+ w.nav.history := by
  unfold Walker.staying
  split
  · exact List.tail_suffix _
  · exact List.suffix_rfl

theorem kept_select_push (h : Kept w) (hj : w.nav.history.length ≤ w.selections) {id : TrackId}
    (inside : id ∈ w.tracks) {reason : AdvanceReason} (hr : reason ≠ .userPrev)
    {current : TrackId} (left : w.current = some current) (other : current ≠ id)
    (top : w.nav.history.getLast? ≠ some current) :
    Kept (w.select R id reason) ↔ 0 < w.nav.historyLimit ∧
      (current ∉ w.tracks → (w.present w.staying).getLast? ≠ some id) := by
  have filtered : (w.current.filter fun current => current != id) = some current := by
    simp [left, other]
  have limit := (select_history R w id hr).1
  have history := ((select_history R w id hr).2.2 current filtered).2 top
  have view : (w.select R id reason).present (w.select R id reason).nav.history =
      w.present w.staying ++ w.present [current] :=
    (congrArg w.present history).trans (List.filter_append ..)
  have past : (w.select R id reason).present (w.select R id reason).past =
      w.present w.past ++ w.present [current] := by
    change w.present (w.past ++ (w.current.filter fun current => current != id).toList) = _
    rw [filtered]
    exact List.filter_append ..
  have stays : w.present w.staying <:+ w.present w.nav.history := (staying_suffix w).filter _
  have room : w.nav.history.length < w.nav.historyLimit → w.staying = w.nav.history :=
    fun more => if_neg fun full => by omega
  have full : w.nav.historyLimit ≤ w.nav.history.length → w.staying = w.nav.history.tail :=
    fun full => if_pos ⟨by rw [left]; rfl, left ▸ top, full⟩
  have bound : (w.select R id reason).nav.history.length ≤
      (w.select R id reason).nav.historyLimit ↔ 0 < w.nav.historyLimit := by
    have bounded := h.bounded
    rw [history, limit, List.length_append, List.length_singleton]
    rcases Nat.lt_or_ge w.nav.history.length w.nav.historyLimit with more | hf
    · rw [room more]
      omega
    · rw [full hf, List.length_tail]
      omega
  have chain : ((w.present w.staying ++ w.present [current]) ++
      (w.select R id reason).sounding).IsChain (· ≠ ·) ↔
        (current ∉ w.tracks → (w.present w.staying).getLast? ≠ some id) := by
    rw [chain_selected R inside]
    by_cases present : current ∈ w.tracks
    · have sounds : w.present [current] = w.sounding := by
        rw [Walker.sounding_present left present, Walker.present,
          List.filter_cons_of_pos (by simpa using present), List.filter_nil]
      refine iff_of_true ⟨?_, ?_⟩ fun gone => absurd present gone
      · rw [sounds]
        obtain ⟨lost, parts⟩ := stays
        exact h.apart.suffix ⟨lost, by rw [← parts, List.append_assoc]⟩
      · rw [sounds, Walker.sounding_present left present, List.getLast?_concat]
        exact fun same => other (Option.some.inj same)
    · have silent : w.present [current] = [] := by
        rw [Walker.present, List.filter_cons_of_neg (by simpa using present), List.filter_nil]
      rw [silent, List.append_nil]
      exact ⟨fun hc _ => hc.2, fun hc => ⟨h.apart.left_of_append.suffix stays, hc present⟩⟩
  constructor
  · intro kept
    exact ⟨bound.mp kept.bounded, chain.mp (view ▸ kept.apart)⟩
  · rintro ⟨positive, apart⟩
    refine ⟨bound.mpr positive, ?_, ?_, fun few => ?_⟩
    · rw [view]
      exact chain.mpr apart
    · obtain ⟨lost, parts⟩ := stays.trans h.recent
      rw [view, past]
      exact ⟨lost, by rw [← parts, List.append_assoc]⟩
    · rw [limit] at few
      have fewer : w.selections + 1 ≤ w.nav.historyLimit := few
      rw [view, past, room (by omega), h.whole (by omega)]

theorem kept_select (h : Kept w) (hj : w.nav.history.length ≤ w.selections) {id : TrackId}
    (inside : id ∈ w.tracks) {reason : AdvanceReason} (hr : reason ≠ .userPrev) :
    Kept (w.select R id reason) ↔ Keeps w (.select id reason) := by
  cases hc : w.current with
  | none =>
    have stays : (w.current.filter fun current => current != id) = none := by rw [hc]; rfl
    have past : w.present (w.select R id reason).past = w.present w.past := by
      change w.present (w.past ++ (w.current.filter fun current => current != id).toList) = _
      rw [stays, Option.toList_none, List.append_nil]
    have staying : w.staying = w.nav.history := if_neg fun h => by simp [hc] at h
    rw [kept_select_same R h inside hr ((select_history R w id hr).2.1 stays) past, Keeps, staying]
    simp [hc]
  | some current =>
    by_cases same : current = id
    · subst same
      have stays : (w.current.filter fun other => other != current) = none := by simp [hc]
      have past : w.present (w.select R current reason).past = w.present w.past := by
        change w.present (w.past ++ (w.current.filter fun other => other != current).toList) = _
        rw [stays, Option.toList_none, List.append_nil]
      rw [kept_select_same R h inside hr ((select_history R w current hr).2.1 stays) past]
      have last := (w.chain_sounding _).mp h.apart
      refine iff_of_true (last.2 current inside hc) ⟨.inr (.inr hc), fun gone => ?_⟩
      exact absurd hc (gone current inside)
    · have gone_iff : (∀ other ∈ w.tracks, w.current ≠ some other) ↔ current ∉ w.tracks := by
        rw [hc]
        refine ⟨fun all hin => all current hin rfl, fun out other hin heq => out ?_⟩
        exact Option.some.inj heq ▸ hin
      by_cases top : w.nav.history.getLast? = some current
      · -- the history ends with the track left, which is gone then
        have filtered : (w.current.filter fun current => current != id) = some current := by
          simp [hc, same]
        have gone : current ∉ w.tracks := by
          intro present
          have last := ((w.chain_sounding _).mp h.apart).2 current present hc
          have split := List.dropLast_append_getLast? current top
          refine last ?_
          rw [← split, Walker.present, List.filter_append,
            List.filter_cons_of_pos (by simpa using present), List.filter_nil,
            List.getLast?_concat]
        have past : w.present (w.select R id reason).past = w.present w.past := by
          change w.present (w.past ++ (w.current.filter fun current => current != id).toList) = _
          rw [filtered, Walker.present, List.filter_append, Option.toList_some,
            List.filter_cons_of_neg (by simpa using gone), List.filter_nil, List.append_nil]
          rfl
        have positive : 0 < w.nav.historyLimit := by
          have bounded := h.bounded
          rcases hh : w.nav.history with _ | ⟨first, rest⟩
          · rw [hh] at top
            cases top
          · rw [hh, List.length_cons] at bounded
            omega
        have staying : w.staying = w.nav.history := if_neg fun all => all.2.1 (top.trans hc.symm)
        rw [kept_select_same R h inside hr (((select_history R w id hr).2.2 current filtered).1 top)
          past, Keeps, staying]
        exact ⟨fun last => ⟨.inl positive, fun _ => last⟩, fun keeps => keeps.2 (gone_iff.mpr gone)⟩
      · rw [kept_select_push R h hj inside hr hc same top, Keeps, gone_iff]
        simp [hc, same]

theorem history_selections (w : Walker) (move : Move) (hj : w.nav.history.length ≤ w.selections)
    (he : (walking R).Enabled w move) :
    ((walking R).next w move).nav.history.length ≤ ((walking R).next w move).selections := by
  cases move with
  | select id reason =>
    obtain ⟨-, stays, leaves⟩ := select_history R w id he.2
    have grown : (w.select R id reason).nav.history.length ≤ w.nav.history.length + 1 := by
      cases hf : w.current.filter fun current => current != id with
      | none =>
        rw [stays hf]
        omega
      | some current =>
        by_cases top : w.nav.history.getLast? = some current
        · rw [(leaves current hf).1 top]
          omega
        · rw [(leaves current hf).2 top, List.length_append, List.length_singleton]
          exact Nat.succ_le_succ (staying_suffix w).length_le
    exact grown.trans (Nat.succ_le_succ hj)
  | back =>
    cases hp : w.nav.prev w.tracks with
    | none =>
      have : w.back R = w := by simp only [Walker.back, hp]
      exact (congrArg (fun v : Walker => v.nav.history.length ≤ v.selections) this).mpr hj
    | some id =>
      obtain ⟨-, -, selections, -, shorter, -, -⟩ := Walker.back_some R hp
      exact (shorter.trans hj).trans selections.ge
  | remove left => exact (List.length_filter_le _ _).trans hj

def Walker.start (nav : NavigationState) (tracks : List TrackId) : Walker :=
  ⟨{ nav with history := [] }, tracks, none, [], 0⟩

theorem promised_start (nav : NavigationState) (tracks : List TrackId) :
    Promised R (.start nav tracks) :=
  (promised_iff R _).mpr ⟨Nat.zero_le _, .nil, List.suffix_rfl, fun _ => rfl⟩

/-- Whatever the limit, a run of selections, committed back steps and removals keeps the promise of
back navigation throughout exactly if each of its steps keeps it. -/
theorem back_navigation_iff (nav : NavigationState) (tracks : List TrackId) (moves : List Move)
    (valid : (walking R).ValidTrace (.start nav tracks) moves) :
    (walking R).Throughout (Promised R) (.start nav tracks) moves ↔
      (walking R).Along Keeps (.start nav tracks) moves := by
  refine throughout_iff_along (J := fun w => w.nav.history.length ≤ w.selections)
    (history_selections R) ?_ (Nat.zero_le _) (promised_start R nav tracks) valid
  intro w move hj promised enabled
  have kept := (promised_iff R w).mp promised
  rw [promised_iff]
  cases move with
  | select id reason => exact kept_select R kept hj enabled.1 enabled.2
  | back => exact iff_of_true (kept_back R kept) trivial
  | remove left => exact kept_remove kept enabled

theorem back_navigation_iff_walk :
    (walking Player.still).Throughout (Promised Player.still) (.start (.new 1) [1, 2, 3])
      [.select 1 .userSelect, .select 2 .userNext, .select 3 .naturalEof, .back, .remove [2]] :=
  (back_navigation_iff Player.still (.new 1) [1, 2, 3] _ (by decide)).mpr (by decide)

/-- Three runs that break the promise: a removal leaves the sounding track on top of the history,
so does the replacement of a removed current track by the one before it, and a history of no
entries keeps one. -/
theorem back_breaks :
    (let moves := [.select 1 .userSelect, .select 2 .userSelect, .select 1 .userSelect, .remove [1]]
    let w := (walking Player.still).runTrace (.start (.new 16) [1, 2]) moves
    (walking Player.still).ValidTrace (.start (.new 16) [1, 2]) moves ∧
      w.nav.prev w.tracks = some 1 ∧ w.current = some 1) ∧
    (let moves := [.select 1 .userSelect, .select 2 .userNext, .select 3 .userNext,
      .remove [1, 2], .select 2 .removedCurrent]
    let w := (walking Player.still).runTrace (.start (.new 16) [1, 2, 3]) moves
    (walking Player.still).ValidTrace (.start (.new 16) [1, 2, 3]) moves ∧
      w.nav.prev w.tracks = some 2 ∧ w.current = some 2) ∧
    (let moves := [.select 1 .userSelect, .select 2 .userNext]
    let w := (walking Player.still).runTrace (.start (.new 0) [1, 2]) moves
    (walking Player.still).ValidTrace (.start (.new 0) [1, 2]) moves ∧
      w.nav.historyLimit < w.nav.history.length) := by
  refine ⟨?_, ?_, ?_⟩ <;> decide

end Navigation

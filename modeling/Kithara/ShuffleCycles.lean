import Kithara.Navigation
import Mathlib.Data.List.Perm.Basic
import Mathlib.Data.List.Nodup
import Mathlib.Data.List.Range
import Mathlib.Algebra.Order.Group.Nat

/-! A shuffled queue that wraps: every cycle of the bag offers every track once, and the tracks on
either side of a refill differ. -/
namespace Navigation

theorem swapEnds_perm (tracks : List TrackId) : (swapEnds tracks).Perm tracks := by
  cases tracks with
  | nil => exact .refl _
  | cons first rest =>
    rcases h : rest.getLast? with _ | last
    · simp [swapEnds, List.getLast?_eq_none_iff.mp h]
    · have parts : rest.dropLast ++ [last] = rest := List.dropLast_append_getLast? last h
      have moved : (first :: last :: rest.dropLast).Perm (first :: rest) := by
        rw [← parts]
        simpa using (List.perm_append_singleton last rest.dropLast).symm
      simp only [swapEnds, h]
      exact (List.perm_append_singleton first (last :: rest.dropLast)).trans moved

namespace NavigationState

variable (R : Rng) {s : NavigationState} {tracks : List TrackId} {current : Option TrackId}

theorem freshCycle_bag (s : NavigationState) (tracks : List TrackId) (avoid : Option TrackId) :
    (s.freshCycle R tracks avoid).bag.Perm tracks := by
  simp only [freshCycle]
  split
  · exact (swapEnds_perm _).trans (R.perm _ _)
  · exact R.perm _ _

theorem drawCycle_over (hs : s.playbackOrder = .shuffle) {wrap : Bool}
    (h : s.redraws tracks current wrap = true) :
    s.drawCycle R tracks current wrap =
      { s with bag := s.bag.filter fun id => tracks.contains id }.freshCycle R tracks current := by
  simp only [redraws, hs, beq_self_eq_true, Bool.true_and] at h
  rw [drawCycle, if_neg (not_not.mpr hs)]
  exact if_pos h

theorem drawCycle_runs (hs : s.playbackOrder = .shuffle) {wrap : Bool}
    (h : s.redraws tracks current wrap = false) :
    s.drawCycle R tracks current wrap =
      { s with bag := s.bag.filter fun id => tracks.contains id } := by
  simp only [redraws, hs, beq_self_eq_true, Bool.true_and] at h
  rw [drawCycle, if_neg (not_not.mpr hs)]
  exact if_neg (by rw [h]; simp)

theorem drawCycle_history (s : NavigationState) (tracks : List TrackId) (current : Option TrackId)
    (wrap : Bool) : (s.drawCycle R tracks current wrap).history = s.history := by
  unfold drawCycle
  split
  · rfl
  · dsimp only
    split <;> rfl

theorem drawCycle_modes (s : NavigationState) (tracks : List TrackId) (current : Option TrackId)
    (wrap : Bool) :
    (s.drawCycle R tracks current wrap).playbackOrder = s.playbackOrder ∧
      (s.drawCycle R tracks current wrap).repeatMode = s.repeatMode := by
  unfold drawCycle
  split
  · exact ⟨rfl, rfl⟩
  · dsimp only
    split <;> exact ⟨rfl, rfl⟩

theorem mem_tracks_of_redrawn {id : TrackId} (s : NavigationState)
    (hid : id ∈ (s.freshCycle R tracks current).bag) : id ∈ tracks :=
  (freshCycle_bag R s tracks current).subset hid

/-- With two tracks or more, a call that may wrap sees another track than the current one. -/
theorem exists_other (hs : s.playbackOrder = .shuffle) (hn : tracks.Nodup)
    (h2 : 2 ≤ tracks.length) (current : Option TrackId) :
    ∃ id ∈ (s.drawCycle R tracks current true).bag, current ≠ some id := by
  by_contra none
  push Not at none
  cases h : s.redraws tracks current true with
  | true =>
    rw [drawCycle_over R hs h] at none
    have drawn := freshCycle_bag R { s with bag := s.bag.filter fun id => tracks.contains id }
      tracks current
    have same : ∀ id ∈ tracks, current = some id := fun id hid => none id (drawn.symm.subset hid)
    obtain ⟨a, b, rest, rfl⟩ : ∃ a b rest, tracks = a :: b :: rest := by
      rcases tracks with _ | ⟨a, _ | ⟨b, rest⟩⟩
      · simp at h2
      · simp at h2
      · exact ⟨a, b, rest, rfl⟩
    have := (same a (by simp)).symm.trans (same b (by simp))
    simp_all
  | false =>
    rw [drawCycle_runs R hs h] at none
    simp only [redraws, hs, beq_self_eq_true, Bool.true_and, Bool.true_or, Bool.and_true, ended,
      Bool.or_eq_false_iff] at h
    refine Bool.false_ne_true (h.2.symm.trans (List.all_eq_true.mpr fun id hid => ?_))
    simp [none id hid]

theorem bag_subset_tracks (hs : s.playbackOrder = .shuffle) (wrap : Bool) :
    ∀ id ∈ (s.drawCycle R tracks current wrap).bag, id ∈ tracks := by
  intro id hid
  cases h : s.redraws tracks current wrap with
  | true => exact mem_tracks_of_redrawn R _ (drawCycle_over R hs h ▸ hid)
  | false =>
    rw [drawCycle_runs R hs h] at hid
    simpa using (List.mem_filter.mp hid).2

theorem bag_eq_of_ended {bag bag' : List TrackId} {wrap : Bool} (same : bag'.Perm bag)
    (h : ended bag current wrap = true) : bag' = bag := by
  simp only [ended, Bool.or_eq_true, List.isEmpty_iff, Bool.and_eq_true, List.all_eq_true,
    beq_iff_eq] at h
  rcases h with rfl | ⟨-, one⟩
  · exact same.eq_nil
  · rcases hb : bag with _ | ⟨id, rest⟩
    · rw [hb] at same
      exact same.eq_nil
    · have all : ∀ other ∈ bag, other = id := fun other hother =>
        Option.some.inj ((one other hother).symm.trans (one id (hb ▸ List.mem_cons_self)))
      have flat := List.eq_replicate_of_mem all
      rw [← hb, flat]
      exact List.perm_replicate.mp (flat ▸ same)

theorem drawCycle_bag_again (s : NavigationState) (tracks : List TrackId)
    (current : Option TrackId) (wrap : Bool) :
    ((s.drawCycle R tracks current wrap).drawCycle R tracks current wrap).bag =
      (s.drawCycle R tracks current wrap).bag := by
  by_cases hs : s.playbackOrder = .shuffle
  · have hs' := (drawCycle_modes R s tracks current wrap).1.trans hs
    have inside : (s.drawCycle R tracks current wrap).bag.filter (fun id => tracks.contains id) =
        (s.drawCycle R tracks current wrap).bag :=
      List.filter_eq_self.mpr fun id hid => by simpa using bag_subset_tracks R hs wrap id hid
    cases h : (s.drawCycle R tracks current wrap).redraws tracks current wrap with
    | false => rw [drawCycle_runs R hs' h, inside]
    | true =>
      cases first : s.redraws tracks current wrap with
      | false =>
        have same : (s.drawCycle R tracks current wrap).redraws tracks current wrap =
            s.redraws tracks current wrap := by
          rw [redraws, inside, hs', redraws, hs, drawCycle_runs R hs first]
        rw [same, first] at h
        exact absurd h Bool.false_ne_true
      | true =>
        have once := drawCycle_over R hs first ▸ freshCycle_bag R
          { s with bag := s.bag.filter fun id => tracks.contains id } tracks current
        have twice := drawCycle_over R hs' h ▸ freshCycle_bag R
          { s.drawCycle R tracks current wrap with
            bag := (s.drawCycle R tracks current wrap).bag.filter fun id => tracks.contains id }
          tracks current
        simp only [redraws, inside, hs', beq_self_eq_true, Bool.true_and, Bool.and_eq_true] at h
        exact bag_eq_of_ended (twice.trans once.symm) h.1
  · have idle : s.drawCycle R tracks current wrap = s := if_pos hs
    rw [idle, idle]

theorem peek_again (s : NavigationState) (tracks : List TrackId) (current : Option TrackId)
    (once wrap : Bool) :
    ((s.drawCycle R tracks current wrap).drawCycle R tracks current wrap).peek tracks current once
      wrap = (s.drawCycle R tracks current wrap).peek tracks current once wrap := by
  have modes := drawCycle_modes R (s.drawCycle R tracks current wrap) tracks current wrap
  simp only [peek, modes.1, modes.2, drawCycle_bag_again]

theorem peek_shuffle (hs : s.playbackOrder = .shuffle) {once : Bool}
    (hr : once = true → s.repeatMode ≠ .one) (h2 : 2 ≤ tracks.length) (wrap : Bool) :
    s.peek tracks current once wrap =
      s.bag.reverse.find? fun id => tracks.contains id && current != some id := by
  have single : (tracks.length == 1) = false := by simp; omega
  rw [peek, if_neg fun h => hr h.1 h.2, hs]
  simp [single]

theorem pushHistory_frame (s : NavigationState) (id : TrackId) :
    s.pushHistory id = { s with history := (s.pushHistory id).history } := by
  unfold pushHistory
  split
  · rfl
  · split <;> rfl

theorem leave_frame (s : NavigationState) (source : Option TrackId) (id : TrackId)
    (reason : AdvanceReason) :
    s.leave source id reason = { s with history := (s.leave source id reason).history } := by
  unfold leave
  split
  · rfl
  · split
    · rfl
    · exact pushHistory_frame s _

/-- A commit that finds a track in the bag takes the chosen one out of it and draws nothing. -/
theorem commit_shuffled (hs : s.playbackOrder = .shuffle) (hb : s.bag ≠ [])
    (source : Option TrackId) (id : TrackId) (reason : AdvanceReason) (tracks : List TrackId) :
    s.commit R source id reason tracks =
      { s with
        history := (s.leave source id reason).history
        bag := s.bag.filter fun candidate => candidate != id } := by
  have full : s.bag.isEmpty = false := by simp [hb]
  unfold commit
  rw [leave_frame s source id reason]
  simp [hs, full]

end NavigationState

/-- The queue as far as navigation reads it: its state and the track that sounds. -/
structure Player where
  nav : NavigationState
  current : Option TrackId

namespace Player

variable (R : Rng) (tracks : List TrackId) (once wrap : Bool)

def offer (p : Player) : Option TrackId := (p.nav.next R tracks p.current once wrap).2

def look (p : Player) : Player := { p with nav := (p.nav.next R tracks p.current once wrap).1 }

def turn (p : Player) (reason : AdvanceReason) : Player :=
  let looked := p.look R tracks once wrap
  match p.offer R tracks once wrap with
  | none => looked
  | some id => ⟨looked.nav.commit R p.current id reason tracks, some id⟩

def turns (reasons : ℕ → AdvanceReason) (p : Player) : ℕ → Player
  | 0 => p
  | n + 1 => (turns reasons p n).turn R tracks once wrap (reasons n)

/-- A cycle begins: the bag that `next` draws from holds every track. -/
def Opens (p : Player) : Prop := (p.look R tracks once wrap).nav.bag.Perm tracks

instance (p : Player) : Decidable (p.Opens R tracks once wrap) :=
  inferInstanceAs (Decidable (List.Perm _ _))

variable {tracks once} {p : Player}

theorem look_bag : (p.look R tracks once wrap).nav.bag =
    (p.nav.drawCycle R tracks p.current wrap).bag := rfl

theorem opens_of_redraws (hs : p.nav.playbackOrder = .shuffle)
    (h : p.nav.redraws tracks p.current wrap = true) : p.Opens R tracks once wrap := by
  rw [Opens, look_bag, NavigationState.drawCycle_over R hs h]
  exact NavigationState.freshCycle_bag R _ _ _

/-- A player whose shuffled queue holds two tracks or more and repeats none by itself. -/
structure Shuffles (tracks : List TrackId) (once : Bool) (p : Player) : Prop where
  distinct : tracks.Nodup
  several : 2 ≤ tracks.length
  shuffled : p.nav.playbackOrder = .shuffle
  apart : once = true → p.nav.repeatMode ≠ .one

theorem Shuffles.offer_eq (h : p.Shuffles tracks once) : p.offer R tracks once wrap =
    (p.look R tracks once wrap).nav.bag.reverse.find? fun id =>
      tracks.contains id && p.current != some id := by
  have modes := NavigationState.drawCycle_modes R p.nav tracks p.current wrap
  exact NavigationState.peek_shuffle (modes.1.trans h.shuffled) (modes.2.symm ▸ h.apart)
    h.several wrap

/-- What one turn does: it takes a track other than the current one out of the bag it sees. -/
theorem Shuffles.turn_spec (h : p.Shuffles tracks once) (reason : AdvanceReason) :
    ∃ id, p.offer R tracks once true = some id ∧ id ∈ tracks ∧
      id ∈ (p.look R tracks once true).nav.bag ∧ p.current ≠ some id ∧
      (p.turn R tracks once true reason).current = some id ∧
      (p.turn R tracks once true reason).nav.bag =
        (p.look R tracks once true).nav.bag.filter (fun candidate => candidate != id) ∧
      (p.turn R tracks once true reason).Shuffles tracks once := by
  obtain ⟨other, hother, hne⟩ :=
    NavigationState.exists_other R h.shuffled h.distinct h.several p.current
  have inside := NavigationState.bag_subset_tracks R h.shuffled true other hother
  have found := h.offer_eq R true
  cases hoffer : p.offer R tracks once true with
  | none =>
    rw [hoffer] at found
    have := List.find?_eq_none.mp found.symm other (List.mem_reverse.mpr hother)
    simp [inside, hne] at this
  | some id =>
    rw [hoffer] at found
    have took := List.find?_some found.symm
    have mem := List.mem_reverse.mp (List.mem_of_find?_eq_some found.symm)
    simp only [List.contains_eq_mem, Bool.and_eq_true, decide_eq_true_eq, bne_iff_ne] at took
    have modes := NavigationState.drawCycle_modes R p.nav tracks p.current true
    have turned : p.turn R tracks once true reason =
        ⟨(p.look R tracks once true).nav.commit R p.current id reason tracks, some id⟩ := by
      simp only [turn, hoffer]
    have shuffled : (p.look R tracks once true).nav.playbackOrder = .shuffle :=
      modes.1.trans h.shuffled
    rw [NavigationState.commit_shuffled R shuffled (List.ne_nil_of_mem mem)] at turned
    rw [turned]
    exact ⟨id, rfl, took.1, mem, took.2, rfl, rfl,
      ⟨h.distinct, h.several, shuffled, modes.2.symm ▸ h.apart⟩⟩

/-- A bag that is not empty, holds tracks and not the current one is drawn from as it is. -/
theorem Shuffles.look_running (h : p.Shuffles tracks once) (hb : p.nav.bag ≠ [])
    (inside : ∀ id ∈ p.nav.bag, id ∈ tracks) (left : ∀ id ∈ p.nav.bag, p.current ≠ some id) :
    (p.look R tracks once true).nav = p.nav := by
  have kept : p.nav.bag.filter (fun id => tracks.contains id) = p.nav.bag :=
    List.filter_eq_self.mpr fun id hid => by simpa using inside id hid
  have runs : p.nav.redraws tracks p.current true = false := by
    obtain ⟨id, hid⟩ := List.exists_mem_of_ne_nil _ hb
    have some_other : (p.nav.bag.all fun id => p.current == some id) = false :=
      List.all_eq_false.mpr ⟨id, hid, by simp [left id hid]⟩
    simp only [NavigationState.redraws, kept, NavigationState.ended, some_other]
    simp [hb]
  change p.nav.drawCycle R tracks p.current true = p.nav
  rw [NavigationState.drawCycle_runs R h.shuffled runs, kept]

variable (reasons : ℕ → AdvanceReason)

theorem Shuffles.turns (h : p.Shuffles tracks once) (n : ℕ) :
    (p.turns R tracks once true reasons n).Shuffles tracks once := by
  induction n with
  | zero => exact h
  | succ n ih =>
    obtain ⟨id, -, -, -, -, -, -, next⟩ := ih.turn_spec R (reasons n)
    exact next

def offers (tracks : List TrackId) (once : Bool) (reasons : ℕ → AdvanceReason) (p : Player)
    (n count : ℕ) : List TrackId :=
  (List.range count).filterMap fun i =>
    (p.turns R tracks once true reasons (n + i)).offer R tracks once true

theorem offers_succ (n count : ℕ) {id : TrackId}
    (h : (p.turns R tracks once true reasons (n + count)).offer R tracks once true = some id) :
    p.offers R tracks once reasons n (count + 1) =
      p.offers R tracks once reasons n count ++ [id] := by
  simp [offers, List.range_succ, List.filterMap_append, h]

/-- Inside a cycle the bag holds the tracks not offered yet, and the current one is none of them. -/
structure Within (n count : ℕ) (p : Player) (tracks : List TrackId) (once : Bool) : Prop where
  parts : (p.offers R tracks once reasons n count ++
    (p.turns R tracks once true reasons (n + count)).nav.bag).Perm tracks
  drawn : (p.offers R tracks once reasons n count).length = count
  left : ∀ id ∈ (p.turns R tracks once true reasons (n + count)).nav.bag,
    (p.turns R tracks once true reasons (n + count)).current ≠ some id

theorem within_turn (h : p.Shuffles tracks once) {n count : ℕ} {bag : List TrackId}
    (seen : ((p.turns R tracks once true reasons (n + count)).look R tracks once true).nav.bag = bag)
    (parts : (p.offers R tracks once reasons n count ++ bag).Perm tracks)
    (drawn : (p.offers R tracks once reasons n count).length = count) :
    Within R reasons n (count + 1) p tracks once := by
  obtain ⟨id, answer, -, mem, -, current, rest, -⟩ :=
    (h.turns R reasons (n + count)).turn_spec R (reasons (n + count))
  rw [seen] at mem rest
  have nodup : bag.Nodup := (List.nodup_append.mp (parts.symm.nodup h.distinct)).2.1
  have taken : bag.filter (fun candidate => candidate != id) = bag.erase id :=
    (nodup.erase_eq_filter id).symm
  refine ⟨?_, ?_, ?_⟩
  · rw [offers_succ R reasons n count answer, ← Nat.add_assoc, turns, rest, taken,
      List.append_assoc]
    exact (((List.perm_cons_erase mem).symm).append_left _).trans parts
  · rw [offers_succ R reasons n count answer, List.length_append, drawn, List.length_singleton]
  · intro other hother
    rw [← Nat.add_assoc, turns, current]
    rw [← Nat.add_assoc, turns, rest] at hother
    have := (List.mem_filter.mp hother).2
    simp only [bne_iff_ne] at this
    exact fun same => this (Option.some.inj same).symm

theorem Within.length {n count : ℕ} (w : Within R reasons n count p tracks once) :
    count + (p.turns R tracks once true reasons (n + count)).nav.bag.length = tracks.length := by
  have := w.parts.length_eq
  rwa [List.length_append, w.drawn] at this

theorem Within.look (h : p.Shuffles tracks once) {n count : ℕ}
    (w : Within R reasons n count p tracks once) (more : count < tracks.length) :
    ((p.turns R tracks once true reasons (n + count)).look R tracks once true).nav =
      (p.turns R tracks once true reasons (n + count)).nav := by
  have length := w.length
  refine (h.turns R reasons (n + count)).look_running R ?_ ?_ w.left
  · intro empty
    rw [empty, List.length_nil] at length
    omega
  · intro id hid
    exact w.parts.subset (List.mem_append_right _ hid)

theorem Shuffles.within (h : p.Shuffles tracks once) {n : ℕ}
    (opens : (p.turns R tracks once true reasons n).Opens R tracks once true) (count : ℕ)
    (hcount : count < tracks.length) : Within R reasons n (count + 1) p tracks once := by
  induction count with
  | zero => exact within_turn R reasons h rfl opens rfl
  | succ count ih =>
    have w := ih (by omega)
    refine within_turn R reasons h (congrArg NavigationState.bag (w.look R reasons h hcount)) ?_
      w.drawn
    exact w.parts

theorem Shuffles.opens_of_empty (h : p.Shuffles tracks once) (hb : p.nav.bag = []) :
    p.Opens R tracks once true := by
  refine opens_of_redraws R true h.shuffled ?_
  simp [NavigationState.redraws, h.shuffled, hb, NavigationState.ended]

theorem Shuffles.cycle (h : p.Shuffles tracks once) {n : ℕ}
    (opens : (p.turns R tracks once true reasons n).Opens R tracks once true) :
    (p.offers R tracks once reasons n tracks.length).Perm tracks ∧
      (p.turns R tracks once true reasons (n + tracks.length)).Opens R tracks once true ∧
      ∀ i, 0 < i → i < tracks.length →
        ¬ (p.turns R tracks once true reasons (n + i)).Opens R tracks once true := by
  have several := h.several
  refine ⟨?_, ?_, ?_⟩
  · have w := h.within R reasons opens (tracks.length - 1) (by omega)
    rw [Nat.sub_add_cancel (by omega)] at w
    have length := w.length
    have empty := List.length_eq_zero_iff.mp
      (show (p.turns R tracks once true reasons (n + tracks.length)).nav.bag.length = 0 by omega)
    simpa [empty] using w.parts
  · have w := h.within R reasons opens (tracks.length - 1) (by omega)
    rw [Nat.sub_add_cancel (by omega)] at w
    have length := w.length
    refine (h.turns R reasons _).opens_of_empty R (List.length_eq_zero_iff.mp ?_)
    omega
  · intro i hpos hi again
    have w := h.within R reasons opens (i - 1) (by omega)
    rw [Nat.sub_add_cancel hpos] at w
    have length := w.length
    have whole := again.length_eq
    rw [w.look R reasons h hi] at whole
    omega

theorem Shuffles.opens_soon (h : p.Shuffles tracks once) :
    ∃ n ≤ p.nav.bag.length, (p.turns R tracks once true reasons n).Opens R tracks once true := by
  by_contra never
  push Not at never
  have shrinks : ∀ n ≤ p.nav.bag.length,
      (p.turns R tracks once true reasons n).nav.bag.length + n ≤ p.nav.bag.length := by
    intro n
    induction n with
    | zero => exact fun _ => Nat.le_refl _
    | succ n ih =>
      intro hn
      have before := ih (by omega)
      have q := h.turns R reasons n
      have runs : (p.turns R tracks once true reasons n).nav.redraws tracks
          (p.turns R tracks once true reasons n).current true = false :=
        Bool.eq_false_iff.mpr fun opens =>
          never n (by omega) (opens_of_redraws R true q.shuffled opens)
      obtain ⟨id, -, -, mem, -, -, rest, -⟩ := q.turn_spec R (reasons n)
      rw [look_bag, NavigationState.drawCycle_runs R q.shuffled runs] at mem rest
      have fewer : (List.filter (fun candidate => candidate != id) _).length < _ :=
        List.length_filter_lt_length_iff_exists.mpr ⟨id, mem, by simp⟩
      have kept := List.length_filter_le (fun id => tracks.contains id)
        (p.turns R tracks once true reasons n).nav.bag
      rw [Player.turns, rest]
      dsimp only at fewer ⊢
      omega
  have last := shrinks _ (Nat.le_refl _)
  refine never _ (Nat.le_refl _) ((h.turns R reasons _).opens_of_empty R ?_)
  exact List.length_eq_zero_iff.mp (by omega)

def looks (tracks : List TrackId) (once wrap : Bool) (p : Player) : ℕ → Player
  | 0 => p
  | n + 1 => (looks tracks once wrap p n).look R tracks once wrap

theorem looks_keep (tracks : List TrackId) (once wrap : Bool) (p : Player) (n : ℕ) :
    (p.looks R tracks once wrap n).offer R tracks once wrap = p.offer R tracks once wrap ∧
      (p.looks R tracks once wrap n).current = p.current ∧
      (p.looks R tracks once wrap n).nav.history = p.nav.history := by
  induction n with
  | zero => exact ⟨rfl, rfl, rfl⟩
  | succ n ih =>
    have again : ((p.looks R tracks once wrap n).look R tracks once wrap).offer R tracks once wrap =
        (p.looks R tracks once wrap n).offer R tracks once wrap :=
      NavigationState.peek_again R _ _ _ _ _
    have history : ((p.looks R tracks once wrap n).look R tracks once wrap).nav.history =
        (p.looks R tracks once wrap n).nav.history :=
      NavigationState.drawCycle_history R _ _ _ _
    exact ⟨again.trans ih.1, ih.2.1, history.trans ih.2.2⟩

theorem Shuffles.turn_looks (h : p.Shuffles tracks once) (n : ℕ) (reason : AdvanceReason) :
    (p.looks R tracks once true n).turn R tracks once true reason =
      p.turn R tracks once true reason := by
  have settled : (p.look R tracks once true).look R tracks once true =
      p.look R tracks once true := by
    have modes := NavigationState.drawCycle_modes R p.nav tracks p.current true
    have shuffled := modes.1.trans h.shuffled
    obtain ⟨id, hid, other⟩ :=
      NavigationState.exists_other R h.shuffled h.distinct h.several p.current
    have inside : (p.nav.drawCycle R tracks p.current true).bag.filter
        (fun id => tracks.contains id) = (p.nav.drawCycle R tracks p.current true).bag :=
      List.filter_eq_self.mpr fun id hid => by
        simpa using NavigationState.bag_subset_tracks R h.shuffled true id hid
    have some_other : ((p.nav.drawCycle R tracks p.current true).bag.all fun id =>
        p.current == some id) = false := List.all_eq_false.mpr ⟨id, hid, by simp [other]⟩
    have runs : (p.nav.drawCycle R tracks p.current true).redraws tracks p.current true = false := by
      simp only [NavigationState.redraws, inside, NavigationState.ended, some_other]
      simp [List.ne_nil_of_mem hid]
    have kept := NavigationState.drawCycle_runs R shuffled runs
    rw [inside] at kept
    exact congrArg (Player.mk · p.current) kept
  have looked : ∀ n, (p.looks R tracks once true n).look R tracks once true =
      p.look R tracks once true := by
    intro n
    induction n with
    | zero => rfl
    | succ n ih => exact (congrArg (look R tracks once true) ih).trans settled
  obtain ⟨answer, current, -⟩ := looks_keep R tracks once true p n
  simp only [turn, answer, looked, current]

/-- A shuffled queue that wraps, over every run: each turn answers a track that does not sound,
the cycles tile the run and offer each track once, and asking again changes nothing. -/
theorem shuffle_cycles (tracks : List TrackId) (once : Bool) (p : Player)
    (h : p.Shuffles tracks once) (reasons : ℕ → AdvanceReason) :
    let run := p.turns R tracks once true reasons
    (∀ n, ∃ id ∈ tracks, (run n).offer R tracks once true = some id ∧
      (run n).current ≠ some id ∧ (run (n + 1)).current = some id) ∧
    (∀ n, (run (n + 1)).offer R tracks once true ≠ (run n).offer R tracks once true) ∧
    (∀ n, (run n).nav.redraws tracks (run n).current true = true →
      (run n).Opens R tracks once true) ∧
    (∃ n ≤ p.nav.bag.length, (run n).Opens R tracks once true) ∧
    (∀ n, (run n).Opens R tracks once true →
      (p.offers R tracks once reasons n tracks.length).Perm tracks ∧
      (run (n + tracks.length)).Opens R tracks once true ∧
      ∀ i, 0 < i → i < tracks.length → ¬ (run (n + i)).Opens R tracks once true) ∧
    (∀ n k reason, ((run n).looks R tracks once true k).turn R tracks once true reason =
      (run n).turn R tracks once true reason) ∧
    ∀ (q : Player) (tracks : List TrackId) (once wrap : Bool) (k : ℕ),
      (q.looks R tracks once wrap k).offer R tracks once wrap = q.offer R tracks once wrap ∧
      (q.looks R tracks once wrap k).current = q.current ∧
      (q.looks R tracks once wrap k).nav.history = q.nav.history := by
  have answers : ∀ n, ∃ id ∈ tracks,
      (p.turns R tracks once true reasons n).offer R tracks once true = some id ∧
      (p.turns R tracks once true reasons n).current ≠ some id ∧
      (p.turns R tracks once true reasons (n + 1)).current = some id := by
    intro n
    obtain ⟨id, answer, inside, -, other, current, -⟩ :=
      (h.turns R reasons n).turn_spec R (reasons n)
    exact ⟨id, inside, answer, other, current⟩
  refine ⟨answers, ?_, ?_, h.opens_soon R reasons, fun n => h.cycle R reasons, ?_, ?_⟩
  · intro n same
    obtain ⟨id, -, answer, -, current⟩ := answers n
    obtain ⟨next, -, answer', other, -⟩ := answers (n + 1)
    exact other (current.trans (answer.symm.trans (same.symm.trans answer')))
  · exact fun n opens => opens_of_redraws R true (h.turns R reasons n).shuffled opens
  · exact fun n k reason => (h.turns R reasons n).turn_looks R k reason
  · exact fun q tracks once wrap k => looks_keep R tracks once wrap q k

def still : Rng := ⟨fun _ tracks => tracks, fun _ _ => .refl _⟩

def shuffling : Player :=
  ⟨(NavigationState.new 16).setPlaybackOrder still .shuffle [1, 2, 3] none, none⟩

theorem shuffle_cycles_three :
    (shuffling.offers still [1, 2, 3] false (fun _ => .userSelect) 0 3).Perm [1, 2, 3] ∧
      (shuffling.turns still [1, 2, 3] false true (fun _ => .userSelect) 3).Opens still [1, 2, 3]
        false true := by
  have run := shuffle_cycles still [1, 2, 3] false shuffling
    ⟨by decide, by decide, by decide, fun once => absurd once (by decide)⟩ fun _ => .userSelect
  have cycle := run.2.2.2.2.1 0 (by decide +kernel)
  exact ⟨cycle.1, cycle.2.1⟩

end Player

end Navigation

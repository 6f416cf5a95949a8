import Kithara.BeatRunOrder

/-! The pieces a push comes to, one after the other: what `missing` finds, whether it was taken,
and the runs it was put to. A piece that is turned down or fails adds nothing to what was taken, and
one that may only extend a run opens none. -/
namespace BeatRuns

open RangeRuns ByteReaders AnalysisBlobs

variable {S : Type} {R : Resampler S}

/-- The stretch `missing` finds is outside the runs, and all before it inside. -/
theorem missing_some {runs : List (ℕ × ℕ)} {last first a b : ℕ} (h : Canonical runs)
    (hsome : missing last first runs = some (a, b)) :
    (∀ x, first ≤ x → x < a → x ∈ Held runs) ∧ ∀ x, a ≤ x → x < b → x ∉ Held runs := by
  induction runs generalizing first with
  | nil =>
    rw [missing] at hsome
    split at hsome
    · cases hsome
      exact ⟨fun x h1 h2 => absurd h1 (not_le.mpr h2), by simp [held_nil]⟩
    · cases hsome
  | cons run rest ih =>
    obtain ⟨c, d⟩ := run
    have hcd : c < d := h.1 (c, d) List.mem_cons_self
    simp only [missing] at hsome
    split at hsome
    · next hdf =>
      obtain ⟨hbefore, hpiece⟩ := ih h.tail hsome
      have hspec := missing_spec hsome
      refine ⟨fun x h1 h2 => mem_held_cons.mpr (Or.inr (hbefore x h1 h2)), fun x h1 h2 hx => ?_⟩
      rcases mem_held_cons.mp hx with hx | hx
      · omega
      · exact hpiece x h1 h2 hx
    · split at hsome
      · next hfc =>
        split at hsome
        · cases hsome
          refine ⟨fun x h1 h2 => absurd h1 (not_le.mpr h2), fun x h1 h2 hx => ?_⟩
          rcases mem_held_cons.mp hx with hx | hx
          · omega
          · have := h.lt_of_mem hx
            omega
        · cases hsome
      · next hcf =>
        obtain ⟨hbefore, hpiece⟩ := ih h.tail hsome
        have hspec := missing_spec hsome
        refine ⟨fun x h1 h2 => ?_, fun x h1 h2 hx => ?_⟩
        · rcases Nat.lt_or_ge x d with hxd | hdx
          · exact mem_held_cons.mpr (Or.inl ⟨by omega, hxd⟩)
          · exact mem_held_cons.mpr (Or.inr (hbefore x hdx h2))
        · rcases mem_held_cons.mp hx with hx | hx
          · omega
          · exact hpiece x h1 h2 hx

theorem missing_none {runs : List (ℕ × ℕ)} {last first : ℕ}
    (hnone : missing last first runs = none) : ∀ x, first ≤ x → x < last → x ∈ Held runs := by
  induction runs generalizing first with
  | nil =>
    rw [missing] at hnone
    split at hnone
    · cases hnone
    · intro x h1 h2
      omega
  | cons run rest ih =>
    obtain ⟨c, d⟩ := run
    simp only [missing] at hnone
    intro x h1 h2
    split at hnone
    · exact mem_held_cons.mpr (Or.inr (ih hnone x h1 h2))
    · split at hnone
      · split at hnone
        · cases hnone
        · omega
      · rcases Nat.lt_or_ge x d with hxd | hdx
        · exact mem_held_cons.mpr (Or.inl ⟨by omega, hxd⟩)
        · exact mem_held_cons.mpr (Or.inr (ih hnone x hdx h2))

structure Ask (S : Type) where
  runs : Runs S
  start : ℕ
  stop : ℕ
  took : Bool

namespace Runs

/-- The pieces `pushPieces` comes to, as far as it gets. -/
def asked (R : Resampler S) (mono : List Sample) (offset stop : ℕ) (hstop : stop < 2 ^ 64)
    (opens : Opens) (s : Runs S) (cursor : ℕ) (fails : Option ℕ) : List (Ask S) :=
  match h : missing stop cursor s.taken.set.runs with
  | none => []
  | some (a, b) =>
    if s.admits a b opens then
      match slice mono offset a b with
      | none => [⟨s, a, b, false⟩]
      | some block =>
        let (s', ok) := s.absorb R block a b (fails == some 0)
        if ok then
          have hb : b < 2 ^ 64 := Nat.lt_of_le_of_lt (missing_spec h).2.2 hstop
          ⟨s, a, b, true⟩ :: asked R mono offset stop hstop opens
            { s' with taken := s'.taken.insert a b hb } b (fails.map (· - 1))
        else [⟨s, a, b, false⟩]
    else [⟨s, a, b, false⟩]
termination_by stop - cursor
decreasing_by
  have := missing_spec h
  omega

theorem stop_fits (mono : List Sample) (offset : ℕ) :
    min (offset + mono.length) (2 ^ 64 - 1) < 2 ^ 64 := by
  omega

def asks (R : Resampler S) (s : Runs S) (mono : List Sample) (offset : ℕ) (opens : Opens)
    (fails : Option ℕ) : List (Ask S) :=
  asked R mono offset (min (offset + mono.length) (2 ^ 64 - 1)) (stop_fits mono offset) opens s offset fails

/-- What a push does: it ends where nothing is missing, at a piece that is turned down or cannot be
cut, and at one that fails; else it takes the piece and goes on behind it. -/
inductive Pushing (R : Resampler S) (mono : List Sample) (offset stop : ℕ) (opens : Opens) :
    Runs S → ℕ → Option ℕ → List (Ask S) → Runs S → Prop
  | done {s : Runs S} {cursor : ℕ} {fails : Option ℕ}
      (hnone : missing stop cursor s.taken.set.runs = none) :
      Pushing R mono offset stop opens s cursor fails [] s
  | refused {s : Runs S} {cursor : ℕ} {fails : Option ℕ} {a b : ℕ}
      (hpiece : missing stop cursor s.taken.set.runs = some (a, b))
      (hadmits : s.admits a b opens = false) :
      Pushing R mono offset stop opens s cursor fails [⟨s, a, b, false⟩] s
  | uncut {s : Runs S} {cursor : ℕ} {fails : Option ℕ} {a b : ℕ}
      (hpiece : missing stop cursor s.taken.set.runs = some (a, b))
      (hslice : slice mono offset a b = none) :
      Pushing R mono offset stop opens s cursor fails [⟨s, a, b, false⟩] s
  | failed {s s' : Runs S} {cursor : ℕ} {fails : Option ℕ} {a b : ℕ} {block : List Sample}
      (hpiece : missing stop cursor s.taken.set.runs = some (a, b))
      (hadmits : s.admits a b opens = true)
      (hslice : slice mono offset a b = some block)
      (habsorb : s.absorb R block a b (fails == some 0) = (s', false)) :
      Pushing R mono offset stop opens s cursor fails [⟨s, a, b, false⟩] s'
  | took {s s' s'' : Runs S} {cursor : ℕ} {fails : Option ℕ} {a b : ℕ} {block : List Sample}
      {asks : List (Ask S)} (hpiece : missing stop cursor s.taken.set.runs = some (a, b))
      (hadmits : s.admits a b opens = true)
      (hslice : slice mono offset a b = some block)
      (habsorb : s.absorb R block a b (fails == some 0) = (s', true)) (hb : b < 2 ^ 64)
      (hrest : Pushing R mono offset stop opens { s' with taken := s'.taken.insert a b hb } b
        (fails.map (· - 1)) asks s'') :
      Pushing R mono offset stop opens s cursor fails (⟨s, a, b, true⟩ :: asks) s''

theorem pushPieces_pushing (R : Resampler S) (mono : List Sample) (offset stop : ℕ)
    (hstop : stop < 2 ^ 64) (opens : Opens) (s : Runs S) (cursor : ℕ) (took : Bool)
    (fails : Option ℕ) :
    Pushing R mono offset stop opens s cursor fails
      (asked R mono offset stop hstop opens s cursor fails)
      (pushPieces R mono offset stop hstop opens s cursor took fails).1 := by
  fun_induction pushPieces R mono offset stop hstop opens s cursor took fails with
  | case1 s cursor took fails hnone =>
    unfold asked
    split
    · exact .done hnone
    · next hsome => rw [hnone] at hsome; cases hsome
  | case2 s cursor took fails a b hpiece hadmits hslice =>
    unfold asked
    split
    · next hnone => rw [hpiece] at hnone; cases hnone
    · next hsome =>
      obtain ⟨rfl, rfl⟩ := Prod.mk.inj (Option.some.inj (hpiece.symm.trans hsome))
      rw [if_pos hadmits]
      split
      · exact .uncut hpiece hslice
      · next hblock => rw [hslice] at hblock; cases hblock
  | case3 s cursor took fails a b hpiece hadmits block hslice s' hb habsorb ih =>
    unfold asked
    split
    · next hnone => rw [hpiece] at hnone; cases hnone
    · next hsome =>
      obtain ⟨rfl, rfl⟩ := Prod.mk.inj (Option.some.inj (hpiece.symm.trans hsome))
      rw [if_pos hadmits]
      split
      · next hblock => rw [hslice] at hblock; cases hblock
      · next hblock =>
        obtain rfl := Option.some.inj (hslice.symm.trans hblock)
        rw [habsorb]
        exact .took hpiece hadmits hslice habsorb hb ih
  | case4 s cursor took fails a b hpiece hadmits block hslice s' ok habsorb hok =>
    unfold asked
    split
    · next hnone => rw [hpiece] at hnone; cases hnone
    · next hsome =>
      obtain ⟨rfl, rfl⟩ := Prod.mk.inj (Option.some.inj (hpiece.symm.trans hsome))
      rw [if_pos hadmits]
      split
      · next hblock => rw [hslice] at hblock; cases hblock
      · next hblock =>
        obtain rfl := Option.some.inj (hslice.symm.trans hblock)
        obtain rfl : ok = false := by simpa using hok
        rw [habsorb]
        exact .failed hpiece hadmits hslice habsorb
  | case5 s cursor took fails a b hpiece hadmits =>
    unfold asked
    split
    · next hnone => rw [hpiece] at hnone; cases hnone
    · next hsome =>
      obtain ⟨rfl, rfl⟩ := Prod.mk.inj (Option.some.inj (hpiece.symm.trans hsome))
      rw [if_neg hadmits]
      exact .refused hpiece (by simpa using hadmits)

theorem push_pushing (R : Resampler S) (s : Runs S) (mono : List Sample) (offset : ℕ)
    (opens : Opens) (fails : Option ℕ) :
    Pushing R mono offset (min (offset + mono.length) (2 ^ 64 - 1)) opens s offset fails
      (s.asks R mono offset opens fails) (s.push R mono offset opens fails).1 :=
  pushPieces_pushing ..

section

variable {mono : List Sample} {offset stop cursor : ℕ} {opens : Opens} {s s' : Runs S}
  {fails : Option ℕ} {asks : List (Ask S)}

theorem absorb_taken {block : List Sample} {a b : ℕ} {f ok : Bool}
    (h : s.absorb R block a b f = (s', ok)) : s'.taken = s.taken := by
  have hkeeps := (absorb_keeps (R := R) s block a b f).2
  rwa [h] at hkeeps

theorem Pushing.taken (h : Pushing R mono offset stop opens s cursor fails asks s') (x : ℕ) :
    x ∈ s'.taken.set ↔
      x ∈ s.taken.set ∨ ∃ ask ∈ asks, ask.took = true ∧ ask.start ≤ x ∧ x < ask.stop := by
  induction h with
  | done | refused | uncut => simp
  | failed _ _ _ habsorb => simp [absorb_taken habsorb]
  | @took s s' s'' cursor fails a b block asks _ _ _ habsorb hb _ ih =>
    have hinsert : x ∈ (s'.taken.insert a b hb).set ↔ (a ≤ x ∧ x < b) ∨ x ∈ s'.taken.set :=
      RangeSet.mem_insert
    rw [ih, hinsert, absorb_taken habsorb, List.exists_mem_cons_iff]
    simp only [true_and]
    exact or_assoc.trans or_left_comm

theorem Pushing.untaken (h : Pushing R mono offset stop opens s cursor fails asks s') :
    ∀ ask ∈ asks, ask.took = false → ∀ x, ask.start ≤ x → x < ask.stop → x ∉ s'.taken.set := by
  induction h with
  | done => simp
  | @refused s cursor fails a b hpiece | @uncut s cursor fails a b hpiece =>
    intro ask hask _
    obtain rfl := List.mem_singleton.mp hask
    exact (missing_some s.taken.set.canonical hpiece).2
  | @failed s s' cursor fails a b block hpiece _ _ habsorb =>
    intro ask hask _
    obtain rfl := List.mem_singleton.mp hask
    rw [absorb_taken habsorb]
    exact (missing_some s.taken.set.canonical hpiece).2
  | took _ _ _ _ _ _ ih =>
    intro ask hask htook
    rcases List.mem_cons.mp hask with rfl | hask
    · cases htook
    · exact ih ask hask htook

theorem Pushing.refuses (h : Pushing R mono offset stop opens s cursor fails asks s') :
    ∀ ask ∈ asks, ask.runs.admits ask.start ask.stop opens = false → ask.took = false := by
  induction h with
  | done | refused | uncut | failed => simp
  | took _ hadmits _ _ _ _ ih =>
    intro ask hask hno
    rcases List.mem_cons.mp hask with rfl | hask
    · exact absurd (hadmits.symm.trans hno) Bool.noConfusion
    · exact ih ask hask hno

/-- Every later run goes on from an earlier one, and there are no more of them. -/
structure Extended (runs runs' : List (Run S)) : Prop where
  grown : ∀ r' ∈ runs', ∃ r ∈ runs, r'.start ≤ r.start ∧ r.stop ≤ r'.stop
  few : runs'.length ≤ runs.length

theorem Extended.of_sublist {runs runs' : List (Run S)} (h : runs'.Sublist runs) :
    Extended runs runs' :=
  ⟨fun r hr => ⟨r, h.subset hr, le_rfl, le_rfl⟩, h.length_le⟩

theorem Extended.trans {runs runs' runs'' : List (Run S)} (h : Extended runs runs')
    (h' : Extended runs' runs'') : Extended runs runs'' := by
  refine ⟨fun r'' hr'' => ?_, h'.few.trans h.few⟩
  obtain ⟨r', hr', hstart', hstop'⟩ := h'.grown r'' hr''
  obtain ⟨r, hr, hstart, hstop⟩ := h.grown r' hr'
  exact ⟨r, hr, hstart'.trans hstart, hstop.trans hstop'⟩

theorem absorb_extends (h : s.Sound) {block : List Sample} {a b : ℕ} {f ok : Bool} (hlt : a < b)
    (hmeets : s.meets a b = true) (habsorb : s.absorb R block a b f = (s', ok)) :
    Extended s.runs s'.runs := by
  obtain ⟨before, absorbed, after, hparts, ⟨hnone, _⟩ | ⟨hsome, hcases⟩⟩ :=
    absorb_cases (R := R) h block hlt f
  · exact absurd hnone (hparts.touches hmeets)
  · rw [habsorb] at hcases
    split at hcases
    · cases hcases
      exact .of_sublist hparts.rest
    · split at hcases
      · cases hcases
        exact .of_sublist hparts.rest
      · next merged hmerge =>
        cases hcases
        have hlength := hparts.length
        have hpos := List.length_pos_of_ne_nil hsome
        refine ⟨fun r' hr' => ?_, ?_⟩
        · rcases List.mem_append.mp hr' with hr' | hr'
          · exact ⟨r', hparts.rest.subset (List.mem_append_left _ hr'), le_rfl, le_rfl⟩
          · rcases List.mem_cons.mp hr' with rfl | hr'
            · cases absorbed with
              | nil => exact absurd rfl hsome
              | cons first rest =>
                obtain ⟨hstart, hstop⟩ := merge_contains hmerge
                exact ⟨first, hparts.absorbed_subset first List.mem_cons_self, hstart, hstop⟩
            · exact ⟨r', hparts.rest.subset (List.mem_append_right _ hr'), le_rfl, le_rfl⟩
        · rw [List.length_append, List.length_cons]
          omega

theorem admits_extends {a b : ℕ} (h : s.admits a b .extends = true) : s.meets a b = true := by
  unfold admits at h
  generalize s.intake = intake at h
  cases intake with
  | full => cases h
  | continuing | anywhere => exact h

theorem Pushing.extends (h : Pushing R mono offset stop opens s cursor fails asks s')
    (hsound : s.Sound) (hopens : opens = .extends) : Extended s.runs s'.runs := by
  induction h with
  | done | refused | uncut => exact .of_sublist (List.Sublist.refl _)
  | failed hpiece hadmits _ habsorb =>
    exact absorb_extends hsound (missing_spec hpiece).2.1
      (admits_extends (hopens ▸ hadmits)) habsorb
  | took hpiece hadmits _ habsorb hb _ ih =>
    have hlt := (missing_spec hpiece).2.1
    have hfirst := absorb_extends hsound hlt (admits_extends (hopens ▸ hadmits)) habsorb
    exact hfirst.trans (ih (absorb_sound hsound hlt hb hadmits habsorb).1)

end

end Runs

end BeatRuns

import Kithara.BeatResumes
import Kithara.RangeGaps
import Kithara.RunAsks
import Kithara.RunWindows

/-! Blocks of a signal in any order, at the detector's own rate. While nothing is turned down, the
runs hold the signal and each frame goes in once, so that without releases what a pass holds
depends on the frames it was given alone. A double counts the frames up to `2 ^ 53`: past it a
release may drop more than it should. -/
namespace BeatRuns

open RangeRuns ByteReaders AnalysisBlobs

variable {S : Type} {R : Resampler S} {signal : ℕ → Sample}

theorem Parted.forall_put {start stop : ℕ} {runs before absorbed after : List (Run S)}
    (h : Parted start stop runs before absorbed after) {p : Run S → Prop}
    (hruns : ∀ r ∈ runs, p r) {put : Run S} (hput : p put) : ∀ r ∈ before ++ put :: after, p r := by
  intro r hr
  rcases List.mem_append.mp hr with hr | hr
  · exact hruns r (h.rest.subset (List.mem_append_left _ hr))
  · rcases List.mem_cons.mp hr with rfl | hr
    · exact hput
    · exact hruns r (h.rest.subset (List.mem_append_right _ hr))

namespace Runs

structure Faithful (signal : ℕ → Sample) (s : Runs S) : Prop where
  sound : s.Sound
  rate : s.SameRate
  exact : ∀ r ∈ s.runs, Exact signal r

/-- Nothing was released: the runs are what was taken, and none is empty. -/
structure Whole (s : Runs S) : Prop where
  spans : ∀ x, x ∈ Spans s.runs ↔ x ∈ s.taken.set
  nonempty : ∀ r ∈ s.runs, r.start < r.stop

theorem absorb_exact {s : Runs S} {start stop : ℕ} (h : Faithful signal s) (hlt : start < stop)
    (hstop : stop ≤ 2 ^ 53) :
    ∃ s', s.absorb R (window signal start stop) start stop false = (s', true) ∧
      (∀ r ∈ s'.runs, Exact signal r) ∧
      (∀ x, x ∈ Spans s'.runs ↔ x ∈ Spans s.runs ∨ (start ≤ x ∧ x < stop)) ∧
      ((∀ r ∈ s.runs, r.start < r.stop) → ∀ r ∈ s'.runs, r.start < r.stop) := by
  obtain ⟨before, absorbed, after, hparts, ⟨rfl, habsorb⟩ | ⟨_, habsorb⟩⟩ :=
    absorb_cases (R := R) h.sound (window signal start stop) hlt false
  · have hopen : s.open R (window signal start stop) start stop =
        ⟨none, window signal start stop, stop, start⟩ := if_pos h.rate.1
    have hwhole := hparts.whole
    rw [List.append_nil] at hwhole
    rw [hopen] at habsorb
    refine ⟨_, habsorb, hparts.forall_put h.exact ⟨rfl, rfl, hstop⟩, fun x => ?_,
      fun hne => hparts.forall_put hne hlt⟩
    · rw [hwhole, mem_spans_append, mem_spans_append, mem_spans_cons]
      exact or_assoc.symm.trans or_right_comm
  · have hapart := h.sound.apart
    rw [hparts.whole] at hapart
    have habsorbed := (List.pairwise_append.mp (List.pairwise_append.mp hapart).1).2.1
    obtain ⟨merged, hmerge, hexact, hstart, hend, hcontains, hwithin⟩ :=
      merge_exact (R := R) h.rate hlt hstop
        (fun r hr => h.exact r (hparts.absorbed_subset r hr))
        (fun r hr => h.sound.forward r (hparts.absorbed_subset r hr)) habsorbed hparts.touched
    rw [hmerge] at habsorb
    refine ⟨_, habsorb, hparts.forall_put h.exact hexact, fun x => ?_,
      fun hne => hparts.forall_put hne (by omega)⟩
    · have hmerged : (merged.start ≤ x ∧ x < merged.stop) ↔
          x ∈ Spans absorbed ∨ (start ≤ x ∧ x < stop) := by
        constructor
        · rintro ⟨h1, h2⟩
          exact (hwithin x h1 h2).symm
        · rintro (⟨r, hr, h1, h2⟩ | ⟨h1, h2⟩)
          · have := hcontains r hr
            omega
          · omega
      rw [hparts.whole, mem_spans_append, mem_spans_append, mem_spans_append, mem_spans_cons,
        hmerged]
      constructor
      · rintro (hb | (ha | hp) | hr)
        · exact Or.inl (Or.inl (Or.inl hb))
        · exact Or.inl (Or.inl (Or.inr ha))
        · exact Or.inr hp
        · exact Or.inl (Or.inr hr)
      · rintro (((hb | ha) | hr) | hp)
        · exact Or.inl hb
        · exact Or.inr (Or.inl (Or.inl ha))
        · exact Or.inr (Or.inr hr)
        · exact Or.inr (Or.inl (Or.inr hp))

def holds (x : ℕ) (ask : Ask S) : Bool := ask.took && decide (ask.start ≤ x ∧ x < ask.stop)

/-- What a push from a frame up to another one does, when nothing is turned down. -/
structure Taking (signal : ℕ → Sample) (start stop : ℕ) (s : Runs S) (asks : List (Ask S))
    (s' : Runs S) : Prop where
  faithful : Faithful signal s'
  config : s'.config = s.config
  taken : ∀ x, x ∈ s'.taken.set ↔ x ∈ s.taken.set ∨ (start ≤ x ∧ x < stop)
  whole : Whole s → Whole s'
  once : ∀ x, x ∉ s.taken.set → x ∈ s'.taken.set → asks.countP (holds x) = 1
  never : ∀ x, x ∈ s.taken.set ∨ x ∉ s'.taken.set → asks.countP (holds x) = 0

theorem admits_anywhere {s : Runs S} (h : s.intake = .anywhere) (a b : ℕ) :
    s.admits a b .run = true := by
  simp only [admits, h]

theorem Pushing.exact {offset stop cursor : ℕ} {opens : Opens} {s s' : Runs S} {fails : Option ℕ}
    {asks : List (Ask S)}
    (h : Pushing R (window signal offset stop) offset stop opens s cursor fails asks s')
    (hopens : opens = .run) (hfails : fails = none) (hlow : stop ≤ 2 ^ 53)
    (hroom : ∀ ask ∈ asks, ask.runs.intake = .anywhere) (hfaithful : Faithful signal s)
    (hcursor : offset ≤ cursor) : Taking signal cursor stop s asks s' := by
  induction h with
  | @done s cursor fails hnone =>
    have hin := missing_none hnone
    refine ⟨hfaithful, rfl, fun x => ⟨Or.inl, ?_⟩, id, fun x hx hx' => absurd hx' hx,
      fun _ _ => rfl⟩
    rintro (hx | ⟨h1, h2⟩)
    · exact hx
    · exact hin x h1 h2
  | @refused s cursor fails a b hpiece hadmits =>
    rw [hopens, admits_anywhere (hroom _ List.mem_cons_self)] at hadmits
    cases hadmits
  | @uncut s cursor fails a b hpiece hslice =>
    obtain ⟨h1, h2, h3⟩ := missing_spec hpiece
    rw [slice_window (hcursor.trans h1) h2.le h3] at hslice
    cases hslice
  | @failed s s' cursor fails a b block hpiece hadmits hslice habsorb =>
    obtain ⟨h1, h2, h3⟩ := missing_spec hpiece
    rw [slice_window (hcursor.trans h1) h2.le h3] at hslice
    obtain rfl := Option.some.inj hslice
    obtain ⟨_, hok, _⟩ := absorb_exact (R := R) hfaithful h2 (h3.trans hlow)
    rw [hfails] at habsorb
    cases hok.symm.trans habsorb
  | @took s s₁ s' cursor fails a b block asks hpiece hadmits hslice habsorb hb _ ih =>
    obtain ⟨h1, h2, h3⟩ := missing_spec hpiece
    obtain ⟨hbefore, houtside⟩ := missing_some s.taken.set.canonical hpiece
    rw [slice_window (hcursor.trans h1) h2.le h3] at hslice
    obtain rfl := Option.some.inj hslice
    obtain ⟨s₂, hok, hexact, hspans, hne⟩ :=
      absorb_exact (R := R) hfaithful h2 (h3.trans hlow)
    obtain ⟨hsound, hconfig, htaken⟩ := absorb_sound hfaithful.sound h2 hb hadmits habsorb
    rw [hfails] at habsorb
    cases hok.symm.trans habsorb
    have hinsert : ∀ x, x ∈ (s₁.taken.insert a b hb).set ↔ (a ≤ x ∧ x < b) ∨ x ∈ s.taken.set := by
      intro x
      rw [← htaken]
      exact RangeSet.mem_insert
    have hrate : SameRate ({ s₁ with taken := s₁.taken.insert a b hb } : Runs S) := by
      have := hfaithful.rate
      rwa [SameRate, ← hconfig] at this
    have hrest := ih (by rw [hfails]; rfl) (fun ask hask => hroom ask (List.mem_cons_of_mem _ hask))
      ⟨hsound, hrate, hexact⟩ (hcursor.trans (h1.trans h2.le))
    have hpast : ∀ x, x ∈ s'.taken.set ↔ x ∈ s.taken.set ∨ (cursor ≤ x ∧ x < stop) := by
      intro x
      rw [hrest.taken, hinsert]
      constructor
      · rintro ((hx | hx) | hx)
        · exact Or.inr (by omega)
        · exact Or.inl hx
        · exact Or.inr (by omega)
      · rintro (hx | ⟨hx1, hx2⟩)
        · exact Or.inl (Or.inr hx)
        · rcases Nat.lt_or_ge x a with hxa | hax
          · exact Or.inl (Or.inr (hbefore x hx1 hxa))
          · rcases Nat.lt_or_ge x b with hxb | hbx
            · exact Or.inl (Or.inl ⟨hax, hxb⟩)
            · exact Or.inr ⟨hbx, hx2⟩
    refine ⟨hrest.faithful, hrest.config.trans hconfig, hpast, fun hwhole => hrest.whole ⟨?_, ?_⟩,
      fun x hx hx' => ?_, fun x hx => ?_⟩
    · intro x
      rw [hspans, hinsert, hwhole.spans]
      exact or_comm
    · exact hne hwhole.nonempty
    · by_cases hin : a ≤ x ∧ x < b
      · have hzero := hrest.never x (Or.inl ((hinsert x).mpr (Or.inl hin)))
        rw [List.countP_cons, hzero, holds, decide_eq_true hin]
        rfl
      · have hone := hrest.once x (fun hmem => ((hinsert x).mp hmem).elim hin hx) hx'
        rw [List.countP_cons, hone, holds, decide_eq_false hin]
        rfl
    · have hin : ¬ (a ≤ x ∧ x < b) := by
        rintro ⟨hx1, hx2⟩
        rcases hx with hx | hx
        · exact houtside x hx1 hx2 hx
        · exact hx ((hpast x).mpr (Or.inr (by omega)))
      have hzero := hrest.never x (hx.imp_left fun hmem => (hinsert x).mpr (Or.inr hmem))
      rw [List.countP_cons, hzero, holds, decide_eq_false hin]
      rfl

theorem releaseRun_exact {c : Config} (hrates : c.sourceRate = c.targetRate)
    (hpos : 0 < c.sourceRate) (opensAt : ℕ → ℕ) {r : Run S} (hr : Exact signal r)
    (hforward : r.start ≤ r.stop) : Exact signal (releaseRun c opensAt r) := by
  have hlow := hr.low
  simp only [releaseRun]
  obtain ⟨target, htarget⟩ : ∃ target, min (max (min ⌊DoubleRounding.nearest
      (DoubleRounding.nearest (opensAt (scale c r.start)) / ratio c)⌋₊ (2 ^ 64 - 1)) r.start)
      r.stop = target := ⟨_, rfl⟩
  rw [htarget, scale_self hrates hpos (by omega), scale_self hrates hpos (by omega)]
  have hlength : r.mono.length = r.stop - r.start := by
    rw [hr.mono, window_length]
  split
  · exact hr
  · refine ⟨hr.stream, ?_, hlow⟩
    dsimp only
    rw [hr.mono, window_drop, window_length]
    have hdrop : r.start + min (target - r.start) (r.stop - r.start) = target := by omega
    rw [hdrop]

theorem release_faithful {s : Runs S} (h : Faithful signal s) (opensAt : ℕ → ℕ) :
    Faithful signal (s.release opensAt) where
  sound := release_sound h.sound opensAt
  rate := h.rate
  exact r hr := by
    obtain ⟨r₀, hr₀, rfl⟩ := List.mem_map.mp hr
    exact releaseRun_exact h.rate.1 h.rate.2 opensAt (h.exact r₀ hr₀) (h.sound.forward r₀ hr₀)

end Runs

/-- A block of the signal that is pushed, from its first frame and as long, or a release. -/
inductive Turn where
  | push (start length : ℕ)
  | release (opensAt : ℕ → ℕ)

def Turn.op (signal : ℕ → Sample) : Turn → Op
  | .push start length => .push (window signal start (start + length)) start .run none
  | .release opensAt => .release opensAt

def Pushed (turns : List Turn) (x : ℕ) : Prop :=
  ∃ start length, Turn.push start length ∈ turns ∧ start ≤ x ∧ x < start + length

def passAsks (R : Resampler S) : Runs S → List Op → List (Ask S)
  | _, [] => []
  | s, .push mono offset opens fails :: ops =>
    s.asks R mono offset opens fails ++ passAsks R (s.push R mono offset opens fails).1 ops
  | s, op :: ops => passAsks R (step R s op) ops

open Runs

structure Reassembled (signal : ℕ → Sample) (turns : List Turn) (s : Runs S) (asks : List (Ask S))
    (s' : Runs S) : Prop where
  faithful : Faithful signal s'
  config : s'.config = s.config
  taken : ∀ x, x ∈ s'.taken.set ↔ x ∈ s.taken.set ∨ Pushed turns x
  whole : (∀ opensAt, Turn.release opensAt ∉ turns) → Whole s → Whole s'
  once : ∀ x, x ∉ s.taken.set → x ∈ s'.taken.set → asks.countP (holds x) = 1
  never : ∀ x, x ∈ s.taken.set ∨ x ∉ s'.taken.set → asks.countP (holds x) = 0

theorem pushed_cons {turn : Turn} {turns : List Turn} {x : ℕ} :
    Pushed (turn :: turns) x ↔ Pushed [turn] x ∨ Pushed turns x := by
  simp only [Pushed, List.mem_cons, List.not_mem_nil, or_false, or_and_right, exists_or]

theorem pushed_push {start length x : ℕ} :
    Pushed [.push start length] x ↔ start ≤ x ∧ x < start + length := by
  simp [Pushed]

theorem pushed_release {opensAt : ℕ → ℕ} {x : ℕ} : ¬ Pushed [.release opensAt] x := by
  simp [Pushed]

theorem foldl_reassembled {turns : List Turn} {s : Runs S} (hfaithful : Faithful signal s)
    (hlow : ∀ start length, Turn.push start length ∈ turns → start + length ≤ 2 ^ 53)
    (hroom : ∀ ask ∈ passAsks R s (turns.map (Turn.op signal)), ask.runs.intake = .anywhere) :
    Reassembled signal turns s (passAsks R s (turns.map (Turn.op signal)))
      ((turns.map (Turn.op signal)).foldl (step R) s) := by
  induction turns generalizing s with
  | nil =>
    exact ⟨hfaithful, rfl, fun x => by simp [Pushed], fun _ h => h,
      fun x hx hx' => absurd hx' hx, fun _ _ => rfl⟩
  | cons turn turns ih =>
    have hlow' := fun start length hmem => hlow start length (List.mem_cons_of_mem turn hmem)
    cases turn with
    | release opensAt =>
      have hrest := ih (release_faithful hfaithful opensAt) hlow' hroom
      refine ⟨hrest.faithful, hrest.config, fun x => ?_,
        fun hno => absurd List.mem_cons_self (hno opensAt), hrest.once, hrest.never⟩
      rw [pushed_cons, or_iff_right pushed_release]
      exact hrest.taken x
    | push start length =>
      have hend := hlow start length List.mem_cons_self
      have hstop : min (start + (window signal start (start + length)).length) (2 ^ 64 - 1) =
          start + length := by
        rw [window_length]
        omega
      have hpushing := push_pushing R s (window signal start (start + length)) start .run none
      rw [hstop] at hpushing
      obtain ⟨hroomFirst, hroomRest⟩ := List.forall_mem_append.mp hroom
      have hfirst := hpushing.exact rfl rfl hend hroomFirst hfaithful le_rfl
      have hrest := ih hfirst.faithful hlow' hroomRest
      refine ⟨hrest.faithful, hrest.config.trans hfirst.config, fun x => ?_, fun hno hwhole => ?_,
        fun x hx hx' => ?_, fun x hx => ?_⟩
      · rw [pushed_cons, pushed_push, ← or_assoc, ← hfirst.taken]
        exact hrest.taken x
      · exact hrest.whole (fun opensAt hmem => hno opensAt (List.mem_cons_of_mem _ hmem))
          (hfirst.whole hwhole)
      · simp only [List.map_cons, Turn.op, passAsks]
        rw [List.countP_append]
        by_cases hmid : x ∈
            (s.push R (window signal start (start + length)) start .run none).1.taken.set
        · rw [hfirst.once x hx hmid, hrest.never x (Or.inl hmid)]
        · rw [hfirst.never x (Or.inr hmid), hrest.once x hmid hx']
      · simp only [List.map_cons, Turn.op, passAsks]
        rw [List.countP_append]
        rcases hx with hx | hx
        · rw [hfirst.never x (Or.inl hx),
            hrest.never x (Or.inl ((hfirst.taken x).mpr (Or.inl hx)))]
        · rw [hrest.never x (Or.inr hx),
            hfirst.never x (Or.inr fun hmid => hx ((hrest.taken x).mpr (Or.inl hmid)))]

theorem new_faithful {c : Config} (hrates : c.sourceRate = c.targetRate) :
    Faithful signal (Runs.new c : Runs S) where
  sound := new_sound c
  rate := ⟨congrArg (max · 1) hrates, Nat.lt_of_lt_of_le Nat.one_pos (Nat.le_max_right _ _)⟩
  exact := by simp [Runs.new]

theorem new_taken (c : Config) (x : ℕ) : x ∉ (Runs.new c : Runs S).taken.set :=
  RangeSet.not_mem_empty x

theorem new_whole (c : Config) : Whole (Runs.new c : Runs S) where
  spans x := iff_of_false (by simp [Spans, Runs.new]) (new_taken c x)
  nonempty := by simp [Runs.new]

def Run.span (r : Run S) : ℕ × ℕ := (r.start, r.stop)

theorem Runs.Whole.canonical {s : Runs S} (h : s.Whole) (hsound : s.Sound) :
    Canonical (s.runs.map Run.span) := by
  refine ⟨?_, List.pairwise_map.mpr hsound.apart⟩
  rintro _ hp
  obtain ⟨r, hr, rfl⟩ := List.mem_map.mp hp
  exact h.nonempty r hr

theorem held_spans {runs : List (Run S)} : Held (runs.map Run.span) = Spans runs := by
  ext x
  simp [Held, Spans, Run.span]

theorem Runs.Faithful.runs_eq {s : Runs S} (h : Faithful signal s) :
    s.runs = (s.runs.map Run.span).map fun p => ⟨none, window signal p.1 p.2, p.2, p.1⟩ := by
  rw [List.map_map]
  refine (List.map_id s.runs).symm.trans (List.map_congr_left fun r hr => ?_)
  obtain ⟨hstream, hmono, _⟩ := h.exact r hr
  obtain ⟨stream, mono, stop, start⟩ := r
  obtain rfl : stream = none := hstream
  obtain rfl : mono = window signal start stop := hmono
  rfl

theorem whole_unique {s s' : Runs S} (h : Faithful signal s) (h' : Faithful signal s')
    (hwhole : Whole s) (hwhole' : Whole s')
    (htaken : ∀ x, x ∈ s.taken.set ↔ x ∈ s'.taken.set) : s.runs = s'.runs := by
  have hheld : Held (s.runs.map Run.span) = Held (s'.runs.map Run.span) := by
    rw [held_spans, held_spans]
    ext x
    rw [hwhole.spans, hwhole'.spans, htaken]
  have hspans := (hwhole.canonical h.sound).eq_of_held (hwhole'.canonical h'.sound) hheld
  rw [h.runs_eq, h'.runs_eq, hspans]

/-- What a push keeps to, whatever the rates, the budget and the cap: a frame it turns down stays
out of what was taken, and without leave to open runs it only extends those there are. -/
structure PushKeeps (R : Resampler S) (s : Runs S) (mono : List Sample) (offset : ℕ)
    (opens : Opens) (fails : Option ℕ) : Prop where
  taken : ∀ x, x ∈ (s.push R mono offset opens fails).1.taken.set ↔
    x ∈ s.taken.set ∨ ∃ ask ∈ s.asks R mono offset opens fails, holds x ask = true
  refused : ∀ ask ∈ s.asks R mono offset opens fails,
    ask.runs.admits ask.start ask.stop opens = false →
      ∀ x, ask.start ≤ x → x < ask.stop → x ∉ (s.push R mono offset opens fails).1.taken.set
  extends_only : opens = .extends → Extended s.runs (s.push R mono offset opens fails).1.runs

theorem push_keeps {s : Runs S} (h : s.Sound) (mono : List Sample) (offset : ℕ) (opens : Opens)
    (fails : Option ℕ) : PushKeeps R s mono offset opens fails where
  taken x := by
    have hpushing := push_pushing R s mono offset opens fails
    simpa [holds] using hpushing.taken x
  refused ask hask hno := by
    have hpushing := push_pushing R s mono offset opens fails
    exact hpushing.untaken ask hask (hpushing.refuses ask hask hno)
  extends_only := (push_pushing R s mono offset opens fails).extends h

/-- Blocks of a signal of at most `2 ^ 53` frames, at one rate and in any order, with releases
between them, while the intake is open whenever a push asks: the runs are in order and apart and
hold the signal, what was taken is what was pushed, and each frame of it went in once; without
releases the frames alone decide the runs. And with any cap and budget, after any operations at any
rates, the runs are few and every push keeps to its leave. -/
theorem runs_reassembled (R : Resampler S) {c : Config} (hrates : c.sourceRate = c.targetRate)
    (signal : ℕ → Sample) (turns : List Turn)
    (hlow : ∀ start length, Turn.push start length ∈ turns → start + length ≤ 2 ^ 53)
    (hroom : ∀ ask ∈ passAsks R (Runs.new c) (turns.map (Turn.op signal)),
      ask.runs.intake = .anywhere) :
    let s := run R c (turns.map (Turn.op signal))
    (s.runs.Pairwise fun r next => r.stop < next.start) ∧
    (∀ r ∈ s.runs, r.start ≤ r.stop ∧ r.mono = window signal r.start r.stop) ∧
    (∀ x, x ∈ s.taken.set ↔ Pushed turns x) ∧
    (∀ r ∈ s.runs, ∀ x, r.start ≤ x → x < r.stop → x ∈ s.taken.set) ∧
    (∀ x, (Pushed turns x →
        (passAsks R (Runs.new c) (turns.map (Turn.op signal))).countP (holds x) = 1) ∧
      (¬ Pushed turns x →
        (passAsks R (Runs.new c) (turns.map (Turn.op signal))).countP (holds x) = 0)) ∧
    (∀ turns' : List Turn, (∀ opensAt, Turn.release opensAt ∉ turns) →
      (∀ opensAt, Turn.release opensAt ∉ turns') →
      (∀ start length, Turn.push start length ∈ turns' → start + length ≤ 2 ^ 53) →
      (∀ ask ∈ passAsks R (Runs.new c) (turns'.map (Turn.op signal)),
        ask.runs.intake = .anywhere) →
      (∀ x, Pushed turns x ↔ Pushed turns' x) →
        s.runs = (run R c (turns'.map (Turn.op signal))).runs) ∧
    ∀ (capped : Config) (ops : List Op),
      (run R capped ops).runs.length ≤ max capped.maxRuns 1 + 1 ∧
      ∀ mono offset opens fails, PushKeeps R (run R capped ops) mono offset opens fails := by
  have hturns := foldl_reassembled (R := R) (new_faithful hrates) hlow hroom
  have htaken : ∀ x, x ∈ (run R c (turns.map (Turn.op signal))).taken.set ↔ Pushed turns x :=
    fun x => (hturns.taken x).trans (or_iff_right (new_taken c x))
  have hsound := hturns.faithful.sound
  refine ⟨hsound.apart, fun r hr => ⟨hsound.forward r hr, (hturns.faithful.exact r hr).mono⟩,
    htaken, hsound.covered, fun x => ⟨fun hx => ?_, fun hx => ?_⟩, ?_, fun capped ops => ?_⟩
  · exact hturns.once x (new_taken c x) ((htaken x).mpr hx)
  · exact hturns.never x (Or.inr fun hmem => hx ((htaken x).mp hmem))
  · intro turns' hno hno' hlow' hroom' hsame
    have hturns' := foldl_reassembled (R := R) (new_faithful hrates) hlow' hroom'
    refine whole_unique hturns.faithful hturns'.faithful (hturns.whole hno (new_whole c))
      (hturns'.whole hno' (new_whole c)) fun x => (htaken x).trans ((hsame x).trans ?_)
    exact ((hturns'.taken x).trans (or_iff_right (new_taken c x))).symm
  · obtain ⟨hcapped, hconfig⟩ := run_sound R capped ops
    refine ⟨?_, fun mono offset opens fails => push_keeps hcapped mono offset opens fails⟩
    have hfew := hcapped.few
    rwa [hconfig] at hfew

/-- Three blocks, the middle one last, with a release between them. -/
theorem runs_reassembled_shuffled :
    let turns := [.push 4 2, .push 0 2, .release fun _ => 1, .push 1 4]
    let s := run passing ⟨22050, 22050, 1000, 8⟩ (turns.map (Turn.op UInt32.ofNat))
    (s.runs.Pairwise fun r next => r.stop < next.start) ∧
      ∀ x, x ∈ s.taken.set ↔ Pushed turns x := by
  have hpass := runs_reassembled (c := ⟨22050, 22050, 1000, 8⟩) passing rfl UInt32.ofNat
    [.push 4 2, .push 0 2, .release fun _ => 1, .push 1 4] (by simp; omega) (by decide +kernel)
  exact ⟨hpass.1, hpass.2.2.1⟩

/-- A double does not hold the frame `2 ^ 53 + 1`: though nothing is turned down, a release that
lets go of one frame there drops two. -/
theorem far_release_drops :
    (∀ ask ∈ passAsks passing (Runs.new ⟨44100, 44100, 2 ^ 60, 2 ^ 60⟩)
        ([.push (2 ^ 53 + 1) 3, .release fun _ => 2 ^ 53 + 2].map (Turn.op fun _ => 0)),
      ask.runs.intake = .anywhere) ∧
    ¬ ∀ r ∈ (run passing ⟨44100, 44100, 2 ^ 60, 2 ^ 60⟩
        ([.push (2 ^ 53 + 1) 3, .release fun _ => 2 ^ 53 + 2].map
          (Turn.op fun _ => 0))).runs, r.mono = window (fun _ => 0) r.start r.stop := by
  decide +kernel

end BeatRuns

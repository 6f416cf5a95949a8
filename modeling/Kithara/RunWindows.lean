import Kithara.BeatRunOrder
import Mathlib.Tactic.SplitIfs

/-! Beat runs at the detector's own rate. A run then holds the signal from its start to its end,
sample for sample, and absorbing a block of the signal keeps it so: the run made of the block and
the runs it touches holds the signal over all of them. -/
namespace BeatRuns

open DoubleRounding

section

variable {signal : ℕ → Sample} {a b c : ℕ}

def window (signal : ℕ → Sample) (start stop : ℕ) : List Sample :=
  (List.range' start (stop - start)).map signal

@[simp] theorem window_length : (window signal a b).length = b - a := by
  simp [window]

theorem window_self : window signal a a = [] := by
  simp [window]

theorem window_append (hab : a ≤ b) (hbc : b ≤ c) :
    window signal a b ++ window signal b c = window signal a c := by
  have hsum : c - a = (b - a) + (c - b) := by omega
  have hstart : a + 1 * (b - a) = b := by omega
  rw [window, window, window, ← List.map_append, hsum, ← List.range'_append, hstart]

theorem window_drop {n : ℕ} : (window signal a b).drop n = window signal (a + n) b := by
  have hlength : b - a - n = b - (a + n) := by omega
  rw [window, window, ← List.map_drop, List.drop_range', hlength, Nat.mul_one]

theorem window_take {n : ℕ} (h : a + n ≤ b) :
    (window signal a b).take n = window signal a (a + n) := by
  rw [← window_append (Nat.le_add_right a n) h]
  exact List.take_left' (by rw [window_length]; omega)

theorem slice_window {first last : ℕ} (ha : a ≤ first) (hle : first ≤ last) (hb : last ≤ b) :
    slice (window signal a b) a first last = some (window signal first last) := by
  have hstart : a + (first - a) = first := by omega
  have hstop : first + (last - a - (first - a)) = last := by omega
  rw [slice, if_pos ⟨by omega, by rw [window_length]; omega⟩, window_drop, hstart,
    window_take (by omega), hstop]

end

theorem pad_length_self (out : List Sample) : pad out out.length = out := by
  simp [pad]

theorem ratio_one {c : Config} (hrates : c.sourceRate = c.targetRate) (hpos : 0 < c.sourceRate) :
    ratio c = 1 := by
  have hne : (c.targetRate : ℚ) ≠ 0 := by
    rw [← hrates]
    exact Nat.cast_ne_zero.mpr hpos.ne'
  rw [ratio, hrates, div_self hne, nearest_one]

/-- At the detector's own rate a count of source frames is one of its frames, while a double holds
it. -/
theorem scale_self {c : Config} {n : ℕ} (hrates : c.sourceRate = c.targetRate)
    (hpos : 0 < c.sourceRate) (h : n ≤ 2 ^ 53) : scale c n = n := by
  have hfloor : ⌊(n : ℚ) + 1 / 2⌋₊ = n := by
    rw [Nat.floor_eq_iff (by positivity)]
    constructor <;> norm_num
  rw [scale, ratio_one hrates hpos, mul_one, nearest_natCast h, nearest_natCast h, hfloor]
  omega

variable {S : Type} {R : Resampler S} {signal : ℕ → Sample}

/-- A run that holds the signal and no resampler. -/
structure Exact (signal : ℕ → Sample) (r : Run S) : Prop where
  stream : r.stream = none
  mono : r.mono = window signal r.start r.stop
  low : r.stop ≤ 2 ^ 53

def Spans (runs : List (Run S)) : Set ℕ := {x | ∃ r ∈ runs, r.start ≤ x ∧ x < r.stop}

theorem mem_spans_append {xs ys : List (Run S)} {x : ℕ} :
    x ∈ Spans (xs ++ ys) ↔ x ∈ Spans xs ∨ x ∈ Spans ys := by
  simp [Spans, or_and_right, exists_or]

theorem mem_spans_cons {r : Run S} {runs : List (Run S)} {x : ℕ} :
    x ∈ Spans (r :: runs) ↔ (r.start ≤ x ∧ x < r.stop) ∨ x ∈ Spans runs := by
  simp [Spans]

namespace Runs

/-- Both rates are one, so no run has a resampler. -/
def SameRate (s : Runs S) : Prop :=
  s.config.sourceRate = s.config.targetRate ∧ 0 < s.config.sourceRate

theorem SameRate.detectorFrames {s : Runs S} (h : s.SameRate) {n : ℕ} (hn : n ≤ 2 ^ 53) :
    s.detectorFrames n = n := scale_self h.1 h.2 hn

structure Merged (signal : ℕ → Sample) (base : ℕ) (m : Merging S) : Prop where
  stream : m.stream = none
  out : m.out = window signal base m.cursor
  forward : base ≤ m.cursor
  low : m.cursor ≤ 2 ^ 53

theorem bridge_exact {s : Runs S} (hs : s.SameRate) {start stop upto base : ℕ} {m : Merging S}
    (hm : Merged signal base m) (hfrom : m.cursor < upto → start ≤ m.cursor)
    (hto : upto ≤ stop) (hlow : upto ≤ 2 ^ 53) :
    ∃ m', s.bridge R (window signal start stop) start upto m = some m' ∧
      Merged signal base m' ∧ m'.cursor = max m.cursor upto := by
  rw [bridge]
  split
  · next hlt =>
    rw [slice_window (hfrom hlt) hlt.le hto, Option.map_some]
    refine ⟨_, rfl, ?_, ?_⟩
    · simp only [resample, if_pos hs.1]
      refine ⟨hm.stream, ?_, hm.forward.trans hlt.le, hlow⟩
      rw [hm.out, window_append hm.forward hlt.le]
    · dsimp only
      omega
  · exact ⟨m, rfl, hm, by omega⟩

theorem mergeRun_exact {s : Runs S} (hs : s.SameRate) {base : ℕ} {m : Merging S} {run : Run S}
    (hm : Merged signal base m) (hrun : Exact signal run) (hstart : run.start ≤ m.cursor) :
    Merged signal base (s.mergeRun R base m run) := by
  have hforward := hm.forward
  have hlow := hm.low
  have hpad : pad (finishInto R m.out m.stream) (s.detectorFrames (m.cursor - base)) =
      window signal base m.cursor := by
    rw [hs.detectorFrames (by omega), finishInto, hm.stream, hm.out]
    simpa using pad_length_self (window signal base m.cursor)
  simp only [mergeRun]
  rw [hpad]
  split
  · exact ⟨rfl, rfl, hforward, hlow⟩
  · next hmore =>
    have hstop := hrun.low
    have hjoin : window signal base m.cursor ++
        run.mono.drop (s.detectorFrames (m.cursor - run.start)) = window signal base run.stop := by
      have hat : run.start + (m.cursor - run.start) = m.cursor := by omega
      rw [hs.detectorFrames (by omega), hrun.mono, window_drop, hat,
        window_append hforward (by omega)]
    rw [hrun.stream, hjoin]
    refine ⟨rfl, ?_, by dsimp only; omega, hstop⟩
    dsimp only
    rw [hs.detectorFrames (by omega)]
    simpa using pad_length_self (window signal base run.stop)

theorem mergeRuns_exact {s : Runs S} (hs : s.SameRate) {start stop base : ℕ}
    {absorbed : List (Run S)} {m : Merging S} (hstop : stop ≤ 2 ^ 53)
    (hexact : ∀ r ∈ absorbed, Exact signal r)
    (htouched : ∀ r ∈ absorbed, start ≤ r.stop ∧ r.start ≤ stop)
    (hm : Merged signal base m)
    (hfirst : start ≤ m.cursor ∨ absorbed.head?.map Run.start = some m.cursor) :
    ∃ m', s.mergeRuns R (window signal start stop) start base absorbed m = some m' ∧
      Merged signal base m' ∧ start ≤ m'.cursor ∧ m.cursor ≤ m'.cursor ∧
      ∀ r ∈ absorbed, r.stop ≤ m'.cursor := by
  induction absorbed generalizing m with
  | nil => exact ⟨m, rfl, hm, hfirst.resolve_right (by simp), le_rfl, by simp⟩
  | cons run rest ih =>
    obtain ⟨hrunStop, hrunStart⟩ := htouched run List.mem_cons_self
    have hrun := hexact run List.mem_cons_self
    have hfrom : m.cursor < run.start → start ≤ m.cursor := by
      intro hlt
      rcases hfirst with hfirst | hfirst
      · exact hfirst
      · rw [List.head?_cons, Option.map_some, Option.some_inj] at hfirst
        omega
    obtain ⟨m₁, hbridge, hm₁, hcursor₁⟩ :=
      bridge_exact (R := R) hs hm hfrom hrunStart (hrunStart.trans hstop)
    have hmerged := mergeRun_exact (R := R) hs hm₁ hrun (by omega)
    have hcursor := mergeRun_cursor (R := R) s base m₁ run
    obtain ⟨m', hrest, hm', hpast, hle, hstops⟩ := ih
      (fun r hr => hexact r (List.mem_cons_of_mem _ hr))
      (fun r hr => htouched r (List.mem_cons_of_mem _ hr)) hmerged (Or.inl (by omega))
    refine ⟨m', ?_, hm', hpast, by omega, List.forall_mem_cons.mpr ⟨by omega, hstops⟩⟩
    rw [mergeRuns, hbridge]
    exact hrest

/-- The block and the runs it touches make one run that holds the signal over all of them. -/
theorem merge_exact {s : Runs S} (hs : s.SameRate) {start stop : ℕ} {absorbed : List (Run S)}
    (hlt : start < stop) (hstop : stop ≤ 2 ^ 53) (hexact : ∀ r ∈ absorbed, Exact signal r)
    (hforward : ∀ r ∈ absorbed, r.start ≤ r.stop)
    (hapart : absorbed.Pairwise fun r next => r.stop < next.start)
    (htouched : ∀ r ∈ absorbed, start ≤ r.stop ∧ r.start ≤ stop) :
    ∃ merged, s.merge R absorbed (window signal start stop) start stop = some merged ∧
      Exact signal merged ∧ merged.start ≤ start ∧ stop ≤ merged.stop ∧
      (∀ r ∈ absorbed, merged.start ≤ r.start ∧ r.stop ≤ merged.stop) ∧
      ∀ x, merged.start ≤ x → x < merged.stop → (start ≤ x ∧ x < stop) ∨ x ∈ Spans absorbed := by
  obtain ⟨base, hbase⟩ : ∃ base,
      (absorbed.head?.map fun run => min run.start start).getD start = base := ⟨_, rfl⟩
  have hfrom : base ≤ start ∧ (∀ r ∈ absorbed, base ≤ r.start) ∧
      (start ≤ base ∨ absorbed.head?.map Run.start = some base) := by
    cases absorbed with
    | nil =>
      have : start = base := hbase
      exact ⟨by omega, by simp, Or.inl (by omega)⟩
    | cons run rest =>
      have hmin : min run.start start = base := hbase
      have hrun := hforward run List.mem_cons_self
      refine ⟨by omega, List.forall_mem_cons.mpr ⟨by omega, fun r hr => ?_⟩, ?_⟩
      · have := (List.pairwise_cons.mp hapart).1 r hr
        omega
      · rcases Nat.le_total start run.start with hle | hge
        · exact Or.inl (by omega)
        · exact Or.inr (congrArg some (show run.start = base by omega))
  have hempty : Merged signal base (⟨[], base, none⟩ : Merging S) :=
    ⟨rfl, window_self.symm, le_rfl, by dsimp only; omega⟩
  obtain ⟨m, hruns, hm, hpast, _, hstops⟩ :=
    mergeRuns_exact (R := R) hs hstop hexact htouched hempty hfrom.2.2
  obtain ⟨m', hbridge, hm', hcursor⟩ :=
    bridge_exact (R := R) hs hm (fun _ => hpast) le_rfl hstop
  have hmerge : s.merge R absorbed (window signal start stop) start stop =
      some ⟨m'.stream, m'.out, m'.cursor, base⟩ := by
    rw [merge, hbase]
    simp only [hruns, hbridge]
  refine ⟨_, hmerge, ⟨hm'.stream, hm'.out, hm'.low⟩, hfrom.1, ?_, ?_, ?_⟩
  · dsimp only
    omega
  · intro r hr
    have := hstops r hr
    exact ⟨hfrom.2.1 r hr, by dsimp only; omega⟩
  · obtain ⟨top, htop⟩ : ∃ top, m'.cursor < top ∧ 2 ^ 53 < top :=
      ⟨max m'.cursor (2 ^ 53) + 1, by omega⟩
    exact (merge_spans hlt (fun x h1 h2 => Or.inl ⟨h1, h2⟩)
      (fun r hr x h1 h2 => Or.inr ⟨r, hr, h1, h2⟩) htouched hforward
      (fun r hr => lt_of_le_of_lt (hexact r hr).low htop.2) (lt_of_le_of_lt hstop htop.2)
      hmerge).2.2.1

end Runs

end BeatRuns

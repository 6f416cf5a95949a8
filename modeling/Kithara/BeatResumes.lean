import Kithara.BeatRunOrder
import Kithara.CoverageBlobs

/-! What a captured beat state reads back as. The reader takes back what was written exactly when
each run still rounds to a frame of the detector, the runs together fit the budget, and the pool
has room. -/
namespace BeatRuns

open RangeRuns ByteReaders AnalysisBlobs

variable {S : Type} {R : Resampler S} {c : Config}

theorem pad_length (out : List Sample) (expected : ℕ) : (pad out expected).length = expected := by
  rw [pad, List.length_append, List.length_take, List.length_replicate]
  omega

theorem writeF32_length (x : Sample) : (writeF32 x).length = 4 := writeU32_length x

theorem writePadded_eq (samples : List Sample) (expected : ℕ) :
    writePadded samples expected =
      writeLen expected ++ (pad samples expected).flatMap writeF32 := by
  rw [writePadded, pad, List.flatMap_append, List.append_assoc]

theorem reads_samples (samples : List Sample) {expected : ℕ} (h : expected < 2 ^ 64) :
    Reads readSamples (writePadded samples expected) (pad samples expected) := by
  have hbytes : ((pad samples expected).flatMap writeF32).length = expected * 4 := by
    rw [flatMap_length fun x _ => writeF32_length x, pad_length]
  have hmany : Reads (readMany readF32 (pad samples expected).length)
      ((pad samples expected).flatMap writeF32) ((pad samples expected).map id) :=
    reads_readMany fun x _ => reads_u32 x
  rw [pad_length, List.map_id] at hmany
  rw [writePadded_eq]
  exact reads_count h hbytes.symm.le hmany

theorem scale_lt (c : Config) (frames : ℕ) : scale c frames < 2 ^ 64 := by
  rw [scale]
  omega

def Run.resume (c : Config) (r : Run S) : BeatRunResume :=
  ⟨pad r.mono (scale c (r.stop - r.start)), r.stop, r.start⟩

theorem reads_run {r : Run S} (hlt : r.start < r.stop) (hstop : r.stop < 2 ^ 64) :
    Reads BeatRunResume.decode (Runs.writeRunResume c r) (r.resume c) := by
  have hstart64 : (UInt64.ofNat r.start).toNat = r.start :=
    UInt64.toNat_ofNat_of_lt' (hlt.trans hstop)
  have hstop64 : (UInt64.ofNat r.stop).toNat = r.stop := UInt64.toNat_ofNat_of_lt' hstop
  have hcheck : UInt64.ofNat r.start < UInt64.ofNat r.stop := by
    rw [UInt64.lt_iff_toNat_lt, hstart64, hstop64]
    exact hlt
  have hmono := (reads_samples r.mono (scale_lt c (r.stop - r.start))).last
    (f := fun mono => (⟨mono, (UInt64.ofNat r.stop).toNat, (UInt64.ofNat r.start).toNat⟩ :
      BeatRunResume))
  rw [hstart64, hstop64] at hmono
  rw [BeatRunResume.decode, Runs.writeRunResume, List.append_assoc]
  refine (reads_u64 _).bind ((reads_u64 _).bind ((reads_check hcheck).skip ?_))
  rw [hstart64, hstop64]
  exact hmono

theorem reads_runsAfter {runs : List (Run S)} {previousEnd : Option ℕ}
    (hlt : ∀ r ∈ runs, r.start < r.stop) (hstop : ∀ r ∈ runs, r.stop < 2 ^ 64)
    (hapart : runs.Pairwise fun r next => r.stop < next.start)
    (hprevious : ∀ previous ∈ previousEnd, ∀ r ∈ runs, previous < r.start) :
    Reads (BeatResume.readRunsAfter runs.length previousEnd)
      (runs.flatMap (Runs.writeRunResume c)) (runs.map (Run.resume c)) := by
  induction runs generalizing previousEnd with
  | nil => exact Reads.pure []
  | cons r rest ih =>
    obtain ⟨hfirst, hrest⟩ := List.pairwise_cons.mp hapart
    have hcheck : ∀ previous ∈ previousEnd, previous < (r.resume c).start :=
      fun previous hp => hprevious previous hp r List.mem_cons_self
    have hnext : ∀ previous ∈ some (r.resume c).stop, ∀ next ∈ rest, previous < next.start := by
      intro previous hp next hmem
      cases hp
      exact hfirst next hmem
    have htail := ih (fun r hr => hlt r (List.mem_cons_of_mem _ hr))
      (fun r hr => hstop r (List.mem_cons_of_mem _ hr)) hrest hnext
    rw [List.length_cons, BeatResume.readRunsAfter, List.flatMap_cons, List.map_cons]
    exact (reads_run (hlt r List.mem_cons_self) (hstop r List.mem_cons_self)).bind
      ((reads_check hcheck).skip htail.last)

theorem writeRunResume_length (c : Config) (r : Run S) :
    24 ≤ (Runs.writeRunResume c r).length := by
  rw [Runs.writeRunResume, writePadded_eq]
  simp only [List.length_append, writeU64_length, writeLen_length]
  omega

theorem flatMap_length_ge {α : Type} {xs : List α} {write : α → Bytes} {n : ℕ}
    (h : ∀ x ∈ xs, n ≤ (write x).length) : xs.length * n ≤ (xs.flatMap write).length := by
  induction xs with
  | nil => simp
  | cons x xs ih =>
    have hx := h x List.mem_cons_self
    have htail := ih fun y hy => h y (List.mem_cons_of_mem x hy)
    rw [List.flatMap_cons, List.length_append, List.length_cons, Nat.succ_mul]
    omega

namespace Runs

theorem live_sublist (s : Runs S) : s.live.Sublist s.runs := List.filter_sublist

theorem live_lt {s : Runs S} {r : Run S} (h : r ∈ s.live) : r.start < r.stop := by
  rw [live, List.mem_filter, decide_eq_true_eq] at h
  exact h.2

theorem live_length {s : Runs S} (h : s.Sound) : s.live.length < 2 ^ 64 := by
  have horder := h.sublist s.live_sublist
  have hcanonical : Canonical (s.live.map fun r => (r.start, r.stop)) := by
    refine ⟨?_, List.pairwise_map.mpr horder.apart⟩
    intro p hp
    obtain ⟨r, hr, rfl⟩ := List.mem_map.mp hp
    exact live_lt hr
  have hfits : ∀ p ∈ s.live.map fun r => (r.start, r.stop), p.2 < 2 ^ 64 := by
    intro p hp
    obtain ⟨r, hr, rfl⟩ := List.mem_map.mp hp
    exact horder.fits r hr
  have hcount := CoverageBlobs.coverage_length ⟨⟨_, hcanonical⟩, hfits⟩
  rwa [List.length_map] at hcount

theorem reads_held {s : Runs S} (h : s.Sound) :
    Reads BeatResume.readHeld s.writeResume (s.live.map (Run.resume s.config), s.taken) := by
  have horder := h.sublist s.live_sublist
  have hruns : Reads (BeatResume.readRunsAfter s.live.length none)
      (s.live.flatMap (writeRunResume s.config)) (s.live.map (Run.resume s.config)) :=
    reads_runsAfter (fun r hr => live_lt hr) horder.fits horder.apart
      fun previous hp => by cases hp
  have hlength : s.live.length * 24 ≤ (s.live.flatMap (writeRunResume s.config)).length :=
    flatMap_length_ge fun r _ => writeRunResume_length s.config r
  have hcoverage := reads_coverage (CoverageBlobs.coverage_length s.taken)
  rw [BeatResume.readHeld, writeResume]
  exact (reads_count (live_length h) hlength hruns).bind hcoverage.last

def ofResume (run : BeatRunResume) : Run S := ⟨none, run.mono, run.stop, run.start⟩

theorem restoreRuns_ok {c : Config} {grants : ℕ → Bool} {n : ℕ} {runs : List BeatRunResume}
    {restored : List (Run S)} : restoreRuns c grants n runs = .ok restored ↔
      restored = runs.map ofResume ∧
        (∀ run ∈ runs, run.mono.length = scale c (run.stop - run.start)) ∧
        ∀ i, i < runs.length → grants (n + i) = true := by
  induction runs generalizing n restored with
  | nil =>
    constructor
    · intro h
      cases h
      exact ⟨rfl, by simp, by simp⟩
    · rintro ⟨rfl, -, -⟩
      rfl
  | cons run rest ih =>
    rw [restoreRuns]
    by_cases hrun : run.mono.length = scale c (run.stop - run.start) ∧ grants n = true
    · rw [if_pos hrun, map_eq_ok]
      constructor
      · rintro ⟨tail, htail, rfl⟩
        obtain ⟨rfl, hlengths, hgrants⟩ := ih.mp htail
        refine ⟨rfl, ?_, ?_⟩
        · intro r hr
          rcases List.mem_cons.mp hr with rfl | hr
          · exact hrun.1
          · exact hlengths r hr
        · intro i hi
          cases i with
          | zero => exact hrun.2
          | succ i =>
            have hnext := hgrants i (Nat.lt_of_succ_lt_succ hi)
            rwa [Nat.add_assoc, Nat.add_comm 1 i] at hnext
      · rintro ⟨rfl, hlengths, hgrants⟩
        refine ⟨rest.map ofResume, ih.mpr ⟨rfl, ?_, ?_⟩, rfl⟩
        · exact fun r hr => hlengths r (List.mem_cons_of_mem _ hr)
        · intro i hi
          have hnext := hgrants (i + 1) (Nat.succ_lt_succ hi)
          rwa [Nat.add_comm i 1, ← Nat.add_assoc] at hnext
    · rw [if_neg hrun]
      refine iff_of_false (fun h => by cases h) ?_
      rintro ⟨-, hlengths, hgrants⟩
      exact absurd ⟨hlengths run List.mem_cons_self, hgrants 0 (Nat.succ_pos _)⟩ hrun

/-- What a run still holds, as it is to come back. -/
def kept (c : Config) (r : Run S) : ℕ × ℕ × List Sample :=
  (r.start, r.stop, pad r.mono (scale c (r.stop - r.start)))

/-- The captured bytes of `s` are read, whatever follows them, and pass validation whatever the
windows beside them; and a fresh pass of the configuration takes up what `s` held. -/
def Resumes (c : Config) (s : Runs S) (grants : ℕ → Bool) : Prop :=
  ∃ runs taken, Reads BeatResume.readHeld s.writeResume (runs, taken) ∧
    (∀ origin short windows,
      BeatResume.windowsValid ⟨origin, short, taken, runs, windows⟩ = true →
        BeatResume.validate ⟨origin, short, taken, runs, windows⟩ = .ok ()) ∧
    ∃ s' : Runs S, restore (new c) grants runs taken = .ok s' ∧ s'.taken = s.taken ∧
      s'.runs.map (fun r => (r.start, r.stop, r.mono)) = s.live.map (kept s.config)

/-- Every run that holds a source frame rounds to a frame of the detector, all of these fit the
budget, and the pool has a buffer for each run. -/
structure Resumable (s : Runs S) (grants : ℕ → Bool) : Prop where
  frames : ∀ r ∈ s.live, scale s.config (r.stop - r.start) ≠ 0
  budget : (s.live.map fun r => scale s.config (r.stop - r.start)).sum ≤ s.config.budget
  pool : ∀ i, i < s.live.length → grants i = true

theorem resume_covered {s : Runs S} (h : s.Sound) :
    ((s.live.map (Run.resume s.config)).any fun run => !s.taken.covers run.start run.stop) =
      false := by
  rw [List.any_eq_false]
  intro run hrun
  obtain ⟨r, hr, rfl⟩ := List.mem_map.mp hrun
  have hcovers : s.taken.covers r.start r.stop = true :=
    Coverage.covers_iff.mpr (h.covered r (s.live_sublist.subset hr))
  simpa [Run.resume] using hcovers

theorem validate_ok {s : Runs S} (h : s.Sound) {origin : Option UInt64} {short : List ℕ}
    {windows : List (ℕ × RawBeatsResume)}
    (hwindows : BeatResume.windowsValid
      ⟨origin, short, s.taken, s.live.map (Run.resume s.config), windows⟩ = true) :
    BeatResume.validate ⟨origin, short, s.taken, s.live.map (Run.resume s.config), windows⟩ =
        .ok () ↔ ∀ r ∈ s.live, scale s.config (r.stop - r.start) ≠ 0 := by
  have hempty : ((s.live.map (Run.resume s.config)).any fun run => run.mono.isEmpty) = false ↔
      ∀ r ∈ s.live, scale s.config (r.stop - r.start) ≠ 0 := by
    rw [List.any_eq_false, List.forall_mem_map]
    refine forall₂_congr fun r _ => ?_
    rw [Run.resume, List.isEmpty_iff_length_eq_zero, pad_length]
  rw [BeatResume.validate, hwindows, resume_covered h, ← hempty]
  cases ((s.live.map (Run.resume s.config)).any fun run => run.mono.isEmpty) with
  | true => exact iff_of_false (fun hc => by cases hc) (fun hc => by cases hc)
  | false => exact iff_of_true rfl rfl

theorem restore_ok {s : Runs S} (h : s.Sound) {grants : ℕ → Bool} {s₀ s' : Runs S}
    (hconfig : s₀.config = s.config) :
    restore s₀ grants (s.live.map (Run.resume s.config)) s.taken = .ok s' ↔
      s' = { s₀ with
        runs := (s.live.map (Run.resume s.config)).map ofResume
        taken := s.taken } ∧
      (s.live.map fun r => scale s.config (r.stop - r.start)).sum ≤ s.config.budget ∧
      ∀ i, i < s.live.length → grants i = true := by
  have hlengths : ∀ run ∈ s.live.map (Run.resume s.config),
      run.mono.length = scale s₀.config (run.stop - run.start) := by
    intro run hrun
    obtain ⟨r, -, rfl⟩ := List.mem_map.mp hrun
    rw [hconfig]
    exact pad_length _ _
  have hfew : ¬ min (s₀.config.maxRuns + 1) (2 ^ 64 - 1) < s.live.length := by
    have hroom := (h.sublist s.live_sublist).few
    have hcount := live_length h
    rw [hconfig]
    omega
  have hheld : (((s.live.map (Run.resume s.config)).map (ofResume (S := S))).map
      fun run => run.mono.length) = s.live.map fun r => scale s.config (r.stop - r.start) := by
    rw [List.map_map, List.map_map]
    refine List.map_congr_left fun r _ => ?_
    exact pad_length _ _
  have hcovers : (((s.live.map (Run.resume s.config)).map (ofResume (S := S))).any
      fun run => !s.taken.covers run.start run.stop) = false := by
    rw [List.any_map]
    exact resume_covered h
  have hgrants : (∀ i, i < (s.live.map (Run.resume s.config)).length → grants (0 + i) = true) ↔
      ∀ i, i < s.live.length → grants i = true := by
    rw [List.length_map]
    simp only [Nat.zero_add]
  rw [restore]
  cases hrestored : restoreRuns (S := S) s₀.config grants 0 (s.live.map (Run.resume s.config)) with
  | error e =>
    refine iff_of_false (fun hc => by cases hc) ?_
    rintro ⟨-, -, hpool⟩
    have hok := (restoreRuns_ok (S := S)).mpr ⟨rfl, hlengths, hgrants.mpr hpool⟩
    rw [hok] at hrestored
    cases hrestored
  | ok restored =>
    obtain ⟨rfl, -, hpool⟩ := restoreRuns_ok.mp hrestored
    dsimp only
    rw [hcovers, if_neg Bool.false_ne_true, held, hheld, List.length_map, List.length_map, hconfig]
    rw [hconfig] at hfew
    by_cases hbudget : s.config.budget <
        (s.live.map fun r => scale s.config (r.stop - r.start)).sum
    · rw [if_pos (Or.inl hbudget)]
      refine iff_of_false (fun hc => by cases hc) ?_
      rintro ⟨-, hle, -⟩
      omega
    · rw [if_neg (not_or.mpr ⟨hbudget, hfew⟩)]
      constructor
      · intro hc
        cases hc
        exact ⟨rfl, not_lt.mp hbudget, hgrants.mp hpool⟩
      · rintro ⟨rfl, -, -⟩
        rfl

theorem resumes_iff {s : Runs S} (h : s.Sound) (hconfig : (new c : Runs S).config = s.config)
    (grants : ℕ → Bool) : Resumes c s grants ↔ Resumable s grants := by
  constructor
  · rintro ⟨runs, taken, hreads, hvalid, s', hrestore, -, -⟩
    have hsame := (reads_held h).run.symm.trans hreads.run
    cases hsame
    obtain ⟨-, hbudget, hpool⟩ := (restore_ok h hconfig).mp hrestore
    have hwindows : BeatResume.windowsValid
        ⟨none, [], s.taken, s.live.map (Run.resume s.config), []⟩ = true := rfl
    exact ⟨(validate_ok h hwindows).mp (hvalid none [] [] rfl), hbudget, hpool⟩
  · intro hresumable
    refine ⟨_, _, reads_held h, ?_, _, (restore_ok h hconfig).mpr
      ⟨rfl, hresumable.budget, hresumable.pool⟩, rfl, ?_⟩
    · intro origin short windows hwindows
      exact (validate_ok h hwindows).mpr hresumable.frames
    · rw [List.map_map, List.map_map]
      rfl

end Runs

/-- After any pushes, flushes and releases, with any resampler and any failures on the way: the
captured state resumes exactly when each of its runs rounds to a frame of the detector, their
frames fit the budget, and the pool has room. -/
theorem captured_resumes_iff (R : Resampler S) (c : Config) (ops : List Op) (grants : ℕ → Bool) :
    (run R c ops).Resumes c grants ↔ (run R c ops).Resumable grants := by
  have hrun := run_sound R c ops
  exact Runs.resumes_iff hrun.1 hrun.2.symm grants

/-- A resampler that gives each sample back. -/
def passing : Resampler Unit := ⟨fun _ _ => (), fun stream mono => (stream, mono), fun _ => []⟩

theorem pushPieces_done {mono : List Sample} {offset stop : ℕ} {hstop : stop < 2 ^ 64}
    {opens : Opens} {s : Runs S} {cursor : ℕ} {took : Bool} {fails : Option ℕ}
    (h : stop ≤ cursor) :
    Runs.pushPieces R mono offset stop hstop opens s cursor took fails = (s, some took) := by
  rw [Runs.pushPieces]
  split
  · rfl
  · next hpiece =>
    have := missing_spec hpiece
    omega

theorem fresh_pieces {mono : List Sample} {offset stop : ℕ} {hstop : stop < 2 ^ 64}
    (hlength : offset + mono.length = stop) (hpos : offset < stop) (hbudget : 0 < c.budget) :
    (Runs.pushPieces R mono offset stop hstop .run (Runs.new c) offset false none).1.runs =
      [(Runs.new c).open R mono offset stop] := by
  have hpiece : missing stop offset (Runs.new c : Runs S).taken.set.runs = some (offset, stop) :=
    if_pos hpos
  have hslice : slice mono offset offset stop = some mono := by
    simp [slice, ← hlength]
  have hadmits : (Runs.new c : Runs S).admits offset stop .run = true := by
    have hheld : ¬ (Runs.new c : Runs S).config.budget ≤ (Runs.new c : Runs S).held :=
      not_le.mpr hbudget
    have hroom : ¬ (Runs.new c : Runs S).config.maxRuns ≤ (Runs.new c : Runs S).runs.length := by
      simp [Runs.new]
    have hintake : (Runs.new c : Runs S).intake = .anywhere := (if_neg hheld).trans (if_neg hroom)
    simp only [Runs.admits, hintake]
  rw [Runs.pushPieces]
  split
  · next hnone =>
    rw [hpiece] at hnone
    cases hnone
  · next a b hsome =>
    have hab := Option.some_inj.mp (hpiece.symm.trans hsome)
    cases hab
    rw [if_pos hadmits]
    split
    · next hnone =>
      rw [hslice] at hnone
      cases hnone
    · next block hsome =>
      have hblock := Option.some_inj.mp (hslice.symm.trans hsome)
      subst hblock
      exact congrArg (fun p : Runs S × Option Bool => p.1.runs) (pushPieces_done (le_refl stop))

theorem first_push (mono : List Sample) (offset : ℕ) (hlength : offset + mono.length < 2 ^ 64)
    (hpos : 0 < mono.length) (hbudget : 0 < c.budget) :
    (run R c [.push mono offset .run none]).runs =
      [(Runs.new c).open R mono offset (min (offset + mono.length) (2 ^ 64 - 1))] := by
  refine fresh_pieces ?_ ?_ hbudget
  · omega
  · omega

/-- One frame at 48 kHz rounds to none at 22.05 kHz; and a block of two frames overruns a budget
of one. Neither state resumes, with room in every pool. -/
theorem captured_refused :
    ¬ (run passing ⟨48000, 22050, 1000, 4⟩ [.push [0] 0 .run none]).Resumes
        ⟨48000, 22050, 1000, 4⟩ (fun _ => true) ∧
      ¬ (run passing ⟨22050, 22050, 1, 4⟩ [.push [0, 0] 0 .run none]).Resumes
        ⟨22050, 22050, 1, 4⟩ (fun _ => true) := by
  constructor
  · intro hresumes
    have hrun := run_sound passing ⟨48000, 22050, 1000, 4⟩ [.push [0] 0 .run none]
    have hresumable := (Runs.resumes_iff hrun.1 hrun.2.symm _).mp hresumes
    have hpush := first_push (R := passing) (c := ⟨48000, 22050, 1000, 4⟩) [0] 0
      (by decide) (by decide) (by decide)
    have hframes := hresumable.frames
    rw [Runs.live, hpush, hrun.2] at hframes
    exact hframes _ (List.mem_singleton.mpr rfl) (by decide +kernel)
  · intro hresumes
    have hrun := run_sound passing ⟨22050, 22050, 1, 4⟩ [.push [0, 0] 0 .run none]
    have hresumable := (Runs.resumes_iff hrun.1 hrun.2.symm _).mp hresumes
    have hpush := first_push (R := passing) (c := ⟨22050, 22050, 1, 4⟩) [0, 0] 0
      (by decide) (by decide) (by decide)
    have hbudget := hresumable.budget
    rw [Runs.live, hpush, hrun.2] at hbudget
    revert hbudget
    decide +kernel

end BeatRuns

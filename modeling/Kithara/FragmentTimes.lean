import Kithara.FragmentTables
import Mathlib.Data.List.Chain
import Mathlib.Data.List.Forall2
import Mathlib.Data.List.TakeWhile

/-! The sample table against the layout: what each fragment's samples are timed by. -/
namespace FragmentTimes

open FragmentTables

/-- The samples of one fragment carry the fragment's times. -/
structure Agrees (fragment : Fragment) (samples : List Sample) : Prop where
  first : ∃ s ∈ samples.head?, s.decodeTicks = fragment.decodeTicks
  contiguous : samples.IsChain fun a b => b.decodeTicks = a.decodeTicks + a.durationTicks.toNat
  duration : (samples.map fun s => s.durationTicks.toNat).sum = fragment.durationTicks

/-- A sample comes from the fragment whose bytes hold its own; an empty one on the border of two
comes from the first. -/
def Holds (fragment : Fragment) (s : Sample) : Prop :=
  fragment.start ≤ s.start ∧ fragment.start < s.finish ∧ s.finish ≤ fragment.finish

instance (fragment : Fragment) (s : Sample) : Decidable (Holds fragment s) :=
  inferInstanceAs (Decidable (fragment.start ≤ s.start ∧ _ ∧ _))

def samplesOf (fragment : Fragment) (samples : List Sample) : List Sample :=
  samples.filter fun s => Holds fragment s

def boxesBetween (first last : ℕ) : ℕ → List TopBox → List TopBox
  | _, [] => []
  | position, box :: rest =>
    if position < first then boxesBetween first last (position + box.size) rest
    else if position < last then box :: boxesBetween first last (position + box.size) rest
    else []

/-- The bytes of a fragment as a buffer of their own. -/
def alone (mp4 : Mp4) (start finish : ℕ) : Mp4 :=
  { mp4 with boxes := boxesBetween start finish 0 mp4.boxes, total := finish - start }

/-- The samples that are enumerated agree with the layout: those of the whole file, by the
fragment whose bytes they come from, and those of each fragment's bytes alone. -/
structure TablesAgree (mp4 : Mp4) (layout : Fmp4Layout) (trackId : UInt32) : Prop where
  whole : ∀ samples, readSamples mp4 trackId = .ok samples → ∀ fragment ∈ layout.fragments,
    Agrees fragment (samplesOf fragment samples)
  alone : ∀ fragment ∈ layout.fragments, ∀ samples,
    readSamples (alone mp4 fragment.start fragment.finish) trackId = .ok samples →
      Agrees fragment samples

def trafDurations (traf : TrafBox) : List UInt32 :=
  traf.truns.flatMap fun trun =>
    (List.range trun.sampleCount.toNat).map (sampleDuration trun traf.tfhd)

def ticks (durations : List UInt32) : ℕ := (durations.map UInt32.toNat).sum

/-- Decode times that start at one tick and advance by each duration. -/
def times : ℕ → List UInt32 → List (ℕ × UInt32)
  | _, [] => []
  | start, duration :: rest =>
    (start, duration) :: times (saturatingAdd start duration.toNat) rest

def timesEnd : ℕ → List UInt32 → ℕ
  | start, [] => start
  | start, duration :: rest => timesEnd (saturatingAdd start duration.toNat) rest

theorem times_cons (start : ℕ) (duration : UInt32) (rest : List UInt32) :
    times start (duration :: rest) =
      (start, duration) :: times (saturatingAdd start duration.toNat) rest := rfl

theorem times_append (start : ℕ) (a b : List UInt32) :
    times start (a ++ b) = times start a ++ times (timesEnd start a) b := by
  induction a generalizing start with
  | nil => rfl
  | cons duration a ih => exact congrArg (List.cons _) (ih _)

theorem map_times (start : ℕ) (durations : List UInt32) :
    (times start durations).map Prod.snd = durations := by
  induction durations generalizing start with
  | nil => rfl
  | cons duration rest ih => exact congrArg (List.cons _) (ih _)

theorem times_contiguous {start : ℕ} (hstart : start ≤ maxU64) (durations : List UInt32) :
    (times start durations).IsChain (fun a b => b.1 = a.1 + a.2.toNat) ↔
      start + ticks durations.dropLast ≤ maxU64 := by
  induction durations generalizing start with
  | nil => exact iff_of_true .nil hstart
  | cons duration rest ih =>
    cases rest with
    | nil => exact iff_of_true (.singleton _) hstart
    | cons next rest =>
      have hdrop : ticks (duration :: next :: rest).dropLast =
          duration.toNat + ticks (next :: rest).dropLast := by
        rw [List.dropLast_cons_cons, ticks, List.map_cons, List.sum_cons, ticks]
      rw [times_cons, times_cons, List.isChain_cons_cons, hdrop]
      by_cases hfits : start + duration.toNat ≤ maxU64
      · have hsat : saturatingAdd start duration.toNat = start + duration.toNat :=
          Nat.min_eq_left hfits
        have hrest := ih hfits
        rw [times_cons] at hrest
        rw [hsat, hrest, ← Nat.add_assoc]
        exact and_iff_right rfl
      · have hsat : saturatingAdd start duration.toNat = maxU64 :=
          Nat.min_eq_right (Nat.le_of_not_le hfits)
        refine iff_of_false (fun h => hfits ?_) (fun h => hfits ?_)
        · rw [← h.1, hsat]
        · omega

theorem except_bind {ε α β : Type} {x : Except ε α} {f : α → Except ε β} {b : β}
    (h : x >>= f = .ok b) : ∃ a, x = .ok a ∧ f a = .ok b := by
  cases x with
  | error error => cases h
  | ok a => exact ⟨a, rfl, h⟩

def timing (s : Sample) : ℕ × UInt32 := (s.decodeTicks, s.durationTicks)

variable {total : ℕ} {trun : TrunBox} {tfhd : TfhdBox}

theorem trunSamples_times {count index byteCursor decodeTicks after : ℕ} {samples : List Sample}
    (h : trunSamples total trun tfhd count index byteCursor decodeTicks = .ok (samples, after)) :
    samples.map timing =
        times decodeTicks ((List.range' index count).map (sampleDuration trun tfhd)) ∧
      after = timesEnd decodeTicks ((List.range' index count).map (sampleDuration trun tfhd)) := by
  induction count generalizing index byteCursor decodeTicks after samples with
  | zero =>
    cases h
    exact ⟨rfl, rfl⟩
  | succ count ih =>
    rw [trunSamples] at h
    obtain ⟨size, _, h⟩ := except_bind h
    dsimp only at h
    split at h
    · cases h
    · split at h
      · cases h
      · obtain ⟨⟨rest, last⟩, hrest, h⟩ := except_bind h
        cases h
        obtain ⟨htimes, hafter⟩ := ih hrest
        rw [List.range'_succ, List.map_cons, List.map_cons, times_cons, htimes]
        exact ⟨rfl, hafter⟩

theorem trunsSamples_times {moofStart decodeTicks : ℕ} {truns : List TrunBox}
    {samples : List Sample}
    (h : trunsSamples total moofStart tfhd truns decodeTicks = .ok samples) :
    samples.map timing = times decodeTicks (truns.flatMap fun trun =>
      (List.range trun.sampleCount.toNat).map (sampleDuration trun tfhd)) := by
  induction truns generalizing decodeTicks samples with
  | nil =>
    cases h
    rfl
  | cons trun rest ih =>
    rw [trunsSamples] at h
    obtain ⟨⟨first, after⟩, hfirst, h⟩ := except_bind h
    obtain ⟨others, hothers, h⟩ := except_bind h
    cases h
    obtain ⟨htimes, hafter⟩ := trunSamples_times hfirst
    rw [List.map_append, htimes, ih hothers, hafter, List.flatMap_cons, times_append,
      List.range_eq_range']

/-- The samples of a moof are timed by the traf they come from, wherever the bytes lie. -/
theorem collectSamples_times {moof : MoofBox} {moofStart : ℕ} {trackId : UInt32}
    {samples : List Sample} (h : collectSamples moof moofStart trackId total = .ok samples) :
    ∃ traf, trafOf moof trackId = some traf ∧
      samples.map timing = times (traf.tfdt.getD 0).toNat (trafDurations traf) := by
  rw [collectSamples] at h
  cases htraf : trafOf moof trackId with
  | none =>
    rw [htraf] at h
    cases h
  | some traf =>
    rw [htraf] at h
    exact ⟨traf, rfl, trunsSamples_times h⟩

theorem ticks_append (a b : List UInt32) : ticks (a ++ b) = ticks a + ticks b := by
  rw [ticks, List.map_append, List.sum_append, ticks, ticks]

theorem trunDurationTicks_eq (trun : TrunBox) (tfhd : TfhdBox) :
    trunDurationTicks trun tfhd =
      ticks ((List.range trun.sampleCount.toNat).map (sampleDuration trun tfhd)) := by
  have hdecoded := trun.decoded
  rw [trunDurationTicks]
  by_cases hflag : trun.flags &&& flagSampleDuration ≠ 0
  · rw [if_pos hflag] at hdecoded
    have hdurations : (List.range trun.sampleCount.toNat).map (sampleDuration trun tfhd) =
        trun.sampleDurations := by
      apply List.ext_getElem
      · rw [List.length_map, List.length_range, hdecoded]
      · intro i hi hi'
        rw [List.getElem_map, List.getElem_range, sampleDuration, if_pos hflag,
          List.getD_eq_getElem?_getD, List.getElem?_eq_getElem hi', Option.getD_some]
    rw [hdurations]
    split
    · rfl
    · rename_i hnone
      have hnil := Decidable.not_not.mp hnone
      have hzero : ¬ 0 < trun.sampleCount := by
        rw [hnil, List.length_nil] at hdecoded
        rw [UInt32.lt_iff_toNat_lt, ← hdecoded]
        exact Nat.lt_irrefl 0
      rw [if_neg hzero, hnil]
      rfl
  · rw [if_neg hflag] at hdecoded
    have hdurations : (List.range trun.sampleCount.toNat).map (sampleDuration trun tfhd) =
        List.replicate trun.sampleCount.toNat (tfhd.defaultSampleDuration.getD 0) := by
      apply List.ext_getElem
      · rw [List.length_map, List.length_range, List.length_replicate]
      · intro i hi hi'
        rw [List.getElem_map, sampleDuration, if_neg hflag, List.getElem_replicate]
    have hticks : ticks (List.replicate trun.sampleCount.toNat
        (tfhd.defaultSampleDuration.getD 0)) =
        trun.sampleCount.toNat * (tfhd.defaultSampleDuration.getD 0).toNat := by
      rw [ticks, List.map_replicate, List.sum_replicate_nat]
    rw [if_neg (by rw [List.eq_nil_of_length_eq_zero hdecoded]; exact fun h => h rfl), hdurations,
      hticks]
    split
    · apply Nat.min_eq_left
      have hcount := trun.sampleCount.toNat_lt
      have hdefault := (tfhd.defaultSampleDuration.getD 0).toNat_lt
      have hprod : trun.sampleCount.toNat * (tfhd.defaultSampleDuration.getD 0).toNat ≤
          (2 ^ 32 - 1) * (2 ^ 32 - 1) := Nat.mul_le_mul (by omega) (by omega)
      exact Nat.le_trans hprod (by decide)
    · rename_i hzero
      rw [UInt32.lt_iff_toNat_lt] at hzero
      have hnone : trun.sampleCount.toNat = 0 := Nat.eq_zero_of_not_pos hzero
      rw [hnone, Nat.zero_mul]

theorem trafDurations_ticks (traf : TrafBox) :
    (traf.truns.map (trunDurationTicks · traf.tfhd)).sum = ticks (trafDurations traf) := by
  rw [trafDurations]
  induction traf.truns with
  | nil => rfl
  | cons trun rest ih =>
    rw [List.map_cons, List.sum_cons, List.flatMap_cons, ticks_append, ih, trunDurationTicks_eq]

/-- Every sample of a run has a size and ends inside the body. -/
def RunFits (total : ℕ) (trun : TrunBox) (tfhd : TfhdBox) : (count index byteCursor : ℕ) → Prop
  | 0, _, _ => True
  | count + 1, index, byteCursor => ∃ size, sampleSize trun tfhd index = .ok size ∧
      byteCursor + size.toNat ≤ maxU64 ∧ byteCursor + size.toNat ≤ total ∧
      RunFits total trun tfhd count (index + 1) (byteCursor + size.toNat)

def runStart (moofStart : ℕ) (tfhd : TfhdBox) (trun : TrunBox) : ℕ :=
  offsetFrom (if tfhd.flags &&& flagDefaultBaseIsMoof ≠ 0 then moofStart
    else tfhd.baseDataOffset.getD moofStart) (trun.dataOffset.getD 0)

def MoofFits (total moofStart : ℕ) (trackId : UInt32) (moof : MoofBox) : Prop :=
  ∃ traf, trafOf moof trackId = some traf ∧ ∀ trun ∈ traf.truns,
    RunFits total trun traf.tfhd trun.sampleCount.toNat 0 (runStart moofStart traf.tfhd trun)

/-- The boxes reach the end of the body, every moof is followed by its mdat, and the samples of
the track fit. -/
def Enumerable (trackId : UInt32) (total : ℕ) : ℕ → List TopBox → Prop
  | position, [] => total ≤ position
  | position, box :: rest =>
    position < total →
      match box.body with
      | .moof moof =>
        match rest with
        | [] => False
        | mdat :: rest' => position + box.size < total ∧ MoofFits total position trackId moof ∧
          match mdat.body with
          | .mdat => Enumerable trackId total (position + box.size + mdat.size) rest'
          | _ => False
      | _ => Enumerable trackId total (position + box.size) rest

theorem trunSamples_ok {count index byteCursor : ℕ} (decodeTicks : ℕ) :
    (∃ result, trunSamples total trun tfhd count index byteCursor decodeTicks = .ok result) ↔
      RunFits total trun tfhd count index byteCursor := by
  induction count generalizing index byteCursor decodeTicks with
  | zero => exact iff_of_true ⟨_, rfl⟩ trivial
  | succ count ih =>
    rw [trunSamples, RunFits]
    cases hsize : sampleSize trun tfhd index with
    | error error => exact iff_of_false (fun ⟨_, h⟩ => by cases h) (fun ⟨_, h, _⟩ => by cases h)
    | ok size =>
      have hrest := @ih (index + 1) (byteCursor + size.toNat)
        (saturatingAdd decodeTicks (sampleDuration trun tfhd index).toNat)
      constructor
      · rintro ⟨result, h⟩
        obtain ⟨_, hok, h⟩ := except_bind h
        cases hok
        dsimp only at h
        split at h
        · cases h
        · split at h
          · cases h
          · rename_i hword hbody
            obtain ⟨inner, hinner, _⟩ := except_bind h
            exact ⟨size, rfl, Nat.le_of_not_lt hword, Nat.le_of_not_lt hbody,
              hrest.mp ⟨inner, hinner⟩⟩
      · rintro ⟨_, hok, hword, hbody, hfits⟩
        cases hok
        obtain ⟨inner, hinner⟩ := hrest.mpr hfits
        refine ⟨({ start := byteCursor, finish := byteCursor + size.toNat
                   durationTicks := sampleDuration trun tfhd index, decodeTicks } :: inner.1,
          inner.2), ?_⟩
        simp only [bind, Except.bind, if_neg (Nat.not_lt_of_le hword),
          if_neg (Nat.not_lt_of_le hbody), hinner]
        rfl

theorem trunsSamples_ok {moofStart : ℕ} {truns : List TrunBox} (decodeTicks : ℕ) :
    (∃ samples, trunsSamples total moofStart tfhd truns decodeTicks = .ok samples) ↔
      ∀ trun ∈ truns, RunFits total trun tfhd trun.sampleCount.toNat 0
        (runStart moofStart tfhd trun) := by
  induction truns generalizing decodeTicks with
  | nil => exact iff_of_true ⟨[], rfl⟩ (fun _ h => absurd h List.not_mem_nil)
  | cons trun rest ih =>
    rw [List.forall_mem_cons, trunsSamples]
    constructor
    · rintro ⟨samples, h⟩
      obtain ⟨first, hfirst, h⟩ := except_bind h
      obtain ⟨others, hothers, _⟩ := except_bind h
      exact ⟨(trunSamples_ok decodeTicks).mp ⟨first, hfirst⟩, (ih _).mp ⟨others, hothers⟩⟩
    · rintro ⟨hrun, hrest⟩
      obtain ⟨first, hfirst⟩ := (trunSamples_ok decodeTicks).mpr hrun
      obtain ⟨others, hothers⟩ := (ih first.2).mpr hrest
      refine ⟨first.1 ++ others, ?_⟩
      rw [runStart] at hfirst
      simp only [bind, Except.bind, hfirst, hothers]
      rfl

theorem collectSamples_ok {moof : MoofBox} {moofStart : ℕ} {trackId : UInt32} :
    (∃ samples, collectSamples moof moofStart trackId total = .ok samples) ↔
      MoofFits total moofStart trackId moof := by
  rw [collectSamples, MoofFits]
  cases trafOf moof trackId with
  | none => exact iff_of_false (fun ⟨_, h⟩ => by cases h) (fun ⟨_, h, _⟩ => by cases h)
  | some traf =>
    refine (trunsSamples_ok _).trans ⟨fun h => ⟨traf, rfl, h⟩, ?_⟩
    rintro ⟨_, hsame, h⟩
    cases hsame
    exact h

def GroupOf (total : ℕ) (trackId : UInt32) (moof : ℕ × MoofBox) (group : List Sample) : Prop :=
  collectSamples moof.2 moof.1 trackId total = .ok group

theorem sampleGroups_ok (trackId : UInt32) (total position : ℕ) (boxes : List TopBox) :
    (∃ groups, sampleGroups trackId total position boxes = .ok groups) ↔
      Enumerable trackId total position boxes := by
  fun_induction sampleGroups trackId total position boxes with
  | case1 position h =>
    exact iff_of_false (fun ⟨_, hok⟩ => by cases hok) (fun hend => Nat.not_le_of_lt h hend)
  | case2 position h => exact iff_of_true ⟨[], rfl⟩ (Nat.le_of_not_lt h)
  | case3 position box rest h =>
    refine iff_of_true ⟨[], rfl⟩ ?_
    rw [Enumerable]
    exact fun hin => absurd h (Nat.not_le_of_lt hin)
  | case4 position box rest h hsize => exact absurd box.covers (Nat.not_le_of_lt hsize)
  | case5 position box h hsize moof hmoof =>
    refine iff_of_false (fun ⟨_, hok⟩ => by cases hok) fun hwalk => ?_
    rw [Enumerable, hmoof] at hwalk
    exact hwalk (Nat.lt_of_not_le h)
  | case6 position box h hsize moof hmoof mdat rest hend =>
    refine iff_of_false (fun ⟨_, hok⟩ => by cases hok) fun hwalk => ?_
    rw [Enumerable, hmoof] at hwalk
    exact Nat.not_le_of_lt (hwalk (Nat.lt_of_not_le h)).1 hend
  | case7 position box h hsize moof hmoof mdat rest hend hmdat ih =>
    rw [Enumerable, hmoof]
    dsimp only
    rw [hmdat]
    dsimp only
    rw [← ih, ← collectSamples_ok]
    constructor
    · rintro ⟨groups, hok⟩ _
      obtain ⟨group, hgroup, hok⟩ := except_bind hok
      obtain ⟨others, hothers, _⟩ := except_bind hok
      exact ⟨Nat.lt_of_not_le hend, ⟨group, hgroup⟩, others, hothers⟩
    · intro hwalk
      obtain ⟨_, ⟨group, hgroup⟩, others, hothers⟩ := hwalk (Nat.lt_of_not_le h)
      refine ⟨group :: others, ?_⟩
      simp only [bind, Except.bind, hgroup, hothers]
      rfl
  | case8 position box h hsize moof hmoof mdat rest hend hmdat =>
    refine iff_of_false (fun ⟨_, hok⟩ => by cases hok) fun hwalk => ?_
    rw [Enumerable, hmoof] at hwalk
    have hnext := (hwalk (Nat.lt_of_not_le h)).2.2
    cases hbody : mdat.body with
    | mdat => exact hmdat hbody
    | moof other =>
      rw [hbody] at hnext
      exact hnext
    | other =>
      rw [hbody] at hnext
      exact hnext
  | case9 position box rest h hsize hmoof ih =>
    rw [ih, Enumerable]
    cases hbody : box.body with
    | moof moof => exact absurd hbody (hmoof moof)
    | mdat => exact ⟨fun hrest _ => hrest, fun hwalk => hwalk (Nat.lt_of_not_le h)⟩
    | other => exact ⟨fun hrest _ => hrest, fun hwalk => hwalk (Nat.lt_of_not_le h)⟩

theorem moofsFrom_other {position : ℕ} {box : TopBox} (rest : List TopBox)
    (hin : position < total) (hbody : ∀ moof, box.body ≠ .moof moof) :
    moofsFrom total position (box :: rest) = moofsFrom total (position + box.size) rest := by
  rw [moofsFrom, if_pos hin]
  cases hkind : box.body with
  | moof moof => exact absurd hkind (hbody moof)
  | mdat => rfl
  | other => rfl

theorem moofsFrom_moof {position : ℕ} {box : TopBox} {moof : MoofBox} (rest : List TopBox)
    (hin : position < total) (hbody : box.body = .moof moof) :
    moofsFrom total position (box :: rest) =
      (position, moof) :: moofsFrom total (position + box.size) rest := by
  rw [moofsFrom, if_pos hin, hbody]

theorem moofsFrom_end {position : ℕ} (boxes : List TopBox) (hend : total ≤ position) :
    moofsFrom total position boxes = [] := by
  cases boxes with
  | nil => rfl
  | cons box rest => rw [moofsFrom, if_neg (Nat.not_lt_of_le hend)]

theorem sampleGroups_moofs (trackId : UInt32) (total position : ℕ) (boxes : List TopBox)
    {groups : List (List Sample)}
    (h : sampleGroups trackId total position boxes = .ok groups) :
    List.Forall₂ (GroupOf total trackId) (moofsFrom total position boxes) groups := by
  fun_induction sampleGroups trackId total position boxes generalizing groups with
  | case1 | case4 | case5 | case6 | case8 => cases h
  | case2 position hend =>
    cases h
    exact .nil
  | case3 position box rest hend =>
    cases h
    rw [moofsFrom_end _ hend]
    exact .nil
  | case7 position box hin hsize moof hmoof mdat rest hend hmdat ih =>
    obtain ⟨group, hgroup, h⟩ := except_bind h
    obtain ⟨others, hothers, h⟩ := except_bind h
    cases h
    have hother : ∀ other, mdat.body ≠ .moof other := fun other hkind => by
      rw [hmdat] at hkind
      cases hkind
    rw [moofsFrom_moof _ (Nat.lt_of_not_le hin) hmoof, moofsFrom_other _ (Nat.lt_of_not_le hend)
      hother]
    exact .cons hgroup (ih hothers)
  | case9 position box rest hin hsize hmoof ih =>
    rw [moofsFrom_other _ (Nat.lt_of_not_le hin) hmoof]
    exact ih h

/-- Where a fragment starts: by its first traf, or where its predecessor ended. -/
def leadStart (prev : Option ℕ) (moof : MoofBox) : ℕ :=
  (((moof.trafs.head?.bind TrafBox.tfdt).map UInt64.toNat).or prev).getD 0

def leadTicks (moof : MoofBox) : ℕ :=
  (moof.trafs.head?.elim 0 fun traf => ticks (trafDurations traf)) % 2 ^ 64

/-- A moof with the bytes of its fragment, and the end of its predecessor. -/
structure Pace where
  start : ℕ
  finish : ℕ
  prev : Option ℕ
  moof : MoofBox

def Pace.fragment (pace : Pace) : Fragment :=
  ⟨pace.start, pace.finish, leadStart pace.prev pace.moof, leadTicks pace.moof⟩

def paced (total : ℕ) : Option ℕ → List (ℕ × MoofBox) → List Pace
  | _, [] => []
  | prev, (start, moof) :: rest =>
    ⟨start, (rest.head?.map Prod.fst).getD total, prev, moof⟩ ::
      paced total (some (saturatingAdd (leadStart prev moof) (leadTicks moof))) rest

def paces (mp4 : Mp4) : List Pace := paced mp4.total none mp4.moofs

/-- The traf the track selects starts where the fragment does and lasts as long, and its times
stay below the top of their range. -/
structure Match (prev : Option ℕ) (moof : MoofBox) (traf : TrafBox) : Prop where
  start : (traf.tfdt.getD 0).toNat = leadStart prev moof
  lasts : ticks (trafDurations traf) = leadTicks moof
  fits : (traf.tfdt.getD 0).toNat + ticks (trafDurations traf).dropLast ≤ maxU64

/-- Every moof whose samples are enumerated, in the whole file or alone, is timed alike by its
first traf and by the traf of the track. -/
def TimesMatch (mp4 : Mp4) (trackId : UInt32) : Prop :=
  ∀ pace ∈ paces mp4, Enumerable trackId mp4.total 0 mp4.boxes ∨
    Enumerable trackId (alone mp4 pace.start pace.finish).total 0
      (alone mp4 pace.start pace.finish).boxes →
    ∀ traf ∈ trafOf pace.moof trackId, Match pace.prev pace.moof traf

def RunLies (fragment : Fragment) (trun : TrunBox) (tfhd : TfhdBox) :
    (count index byteCursor : ℕ) → Prop
  | 0, _, _ => True
  | count + 1, index, byteCursor => ∀ size, sampleSize trun tfhd index = .ok size →
      fragment.start ≤ byteCursor ∧ fragment.start < byteCursor + size.toNat ∧
        byteCursor + size.toNat ≤ fragment.finish ∧
        RunLies fragment trun tfhd count (index + 1) (byteCursor + size.toNat)

/-- If the whole file is enumerated, the runs of the track lie in the fragments of their moofs. -/
def RunsPlaced (mp4 : Mp4) (trackId : UInt32) : Prop :=
  Enumerable trackId mp4.total 0 mp4.boxes → ∀ pace ∈ paces mp4,
    ∀ traf ∈ trafOf pace.moof trackId, ∀ trun ∈ traf.truns,
      RunLies pace.fragment trun traf.tfhd trun.sampleCount.toNat 0
        (runStart pace.start traf.tfhd trun)

theorem fragmentsOf_paced {prev : Option ℕ} {moofs : List (ℕ × MoofBox)}
    {fragments : List Fragment} (h : fragmentsOf total prev moofs = some fragments) :
    fragments = (paced total prev moofs).map Pace.fragment ∧
      ∀ pace ∈ paced total prev moofs, leadTicks pace.moof ≠ 0 := by
  induction moofs generalizing prev fragments with
  | nil =>
    cases h
    exact ⟨rfl, fun _ hpace => absurd hpace List.not_mem_nil⟩
  | cons moof rest ih =>
    rw [fragmentsOf] at h
    obtain ⟨fragment, hfragment, h⟩ := Option.bind_eq_some_iff.mp h
    obtain ⟨others, hothers, h⟩ := Option.bind_eq_some_iff.mp h
    cases h
    rw [fragmentFromMoof] at hfragment
    obtain ⟨lead, hlead, hfragment⟩ := Option.bind_eq_some_iff.mp hfragment
    have hstart : ((lead.tfdt.map UInt64.toNat).or prev).getD 0 = leadStart prev moof.2 := by
      rw [leadStart, hlead, Option.bind_some]
    have hlasts : (lead.truns.map (trunDurationTicks · lead.tfhd)).sum % 2 ^ 64 =
        leadTicks moof.2 := by
      rw [leadTicks, hlead, trafDurations_ticks]
      rfl
    dsimp only at hfragment
    rw [hstart, hlasts] at hfragment
    split at hfragment
    · cases hfragment
    · rename_i hsome
      split at hfragment
      · cases hfragment
      · cases hfragment
        obtain ⟨hsame, hlasting⟩ := ih hothers
        refine ⟨congrArg (List.cons _) hsame, fun pace hpace => ?_⟩
        rcases List.mem_cons.mp hpace with rfl | hpace
        · exact hsome
        · exact hlasting pace hpace

theorem agrees_iff {pace : Pace} {trackId : UInt32} {start : ℕ} {samples : List Sample}
    (hne : leadTicks pace.moof ≠ 0)
    (hsamples : collectSamples pace.moof start trackId total = .ok samples) :
    Agrees pace.fragment samples ↔
      ∀ traf ∈ trafOf pace.moof trackId, Match pace.prev pace.moof traf := by
  obtain ⟨traf, htraf, htimes⟩ := collectSamples_times hsamples
  have hdurations : samples.map Sample.durationTicks = trafDurations traf := by
    rw [← map_times (traf.tfdt.getD 0).toNat (trafDurations traf), ← htimes, List.map_map]
    rfl
  have hsum : (samples.map fun s => s.durationTicks.toNat).sum = ticks (trafDurations traf) := by
    rw [ticks, ← hdurations, List.map_map]
    rfl
  have hchain : (samples.IsChain fun a b => b.decodeTicks = a.decodeTicks + a.durationTicks.toNat) ↔
      (traf.tfdt.getD 0).toNat + ticks (trafDurations traf).dropLast ≤ maxU64 := by
    have hmax : (traf.tfdt.getD 0).toNat ≤ maxU64 := Nat.le_of_lt_succ (UInt64.toNat_lt _)
    rw [← times_contiguous hmax, ← htimes, List.isChain_map]
    rfl
  have hhead (hsome : trafDurations traf ≠ []) :
      (∃ s ∈ samples.head?, s.decodeTicks = pace.fragment.decodeTicks) ↔
        (traf.tfdt.getD 0).toNat = pace.fragment.decodeTicks := by
    cases samples with
    | nil => exact absurd hdurations.symm hsome
    | cons first rest =>
      cases hlist : trafDurations traf with
      | nil => exact absurd hlist hsome
      | cons duration others =>
        rw [hlist, List.map_cons, times_cons] at htimes
        have hfirst : first.decodeTicks = (traf.tfdt.getD 0).toNat :=
          congrArg Prod.fst (List.cons.inj htimes).1
        rw [← hfirst]
        exact ⟨fun ⟨_, hs, heq⟩ => by cases hs; exact heq, fun heq => ⟨first, rfl, heq⟩⟩
  have hnonempty (hlasts : ticks (trafDurations traf) = leadTicks pace.moof) :
      trafDurations traf ≠ [] := fun hnil => hne <| by
    rw [← hlasts, hnil]
    rfl
  constructor
  · intro hagrees other hother
    cases htraf.symm.trans hother
    have hlasts : ticks (trafDurations traf) = leadTicks pace.moof := hsum ▸ hagrees.duration
    exact
      { start := (hhead (hnonempty hlasts)).mp hagrees.first
        lasts := hlasts
        fits := hchain.mp hagrees.contiguous }
  · intro hmatch
    have hsame := hmatch traf htraf
    exact
      { first := (hhead (hnonempty hsame.lasts)).mpr hsame.start
        contiguous := hchain.mpr hsame.fits
        duration := hsum.trans hsame.lasts }

theorem moofsFrom_lt {position : ℕ} {boxes : List TopBox} {moof : ℕ × MoofBox}
    (h : moof ∈ moofsFrom total position boxes) : moof.1 < total := by
  induction boxes generalizing position with
  | nil => cases h
  | cons box rest ih =>
    by_cases hin : position < total
    · by_cases hbody : ∀ moof, box.body ≠ .moof moof
      · rw [moofsFrom_other rest hin hbody] at h
        exact ih h
      · push Not at hbody
        obtain ⟨first, hbody⟩ := hbody
        rw [moofsFrom_moof rest hin hbody, List.mem_cons] at h
        rcases h with rfl | h
        · exact hin
        · exact ih h
    · rw [moofsFrom_end _ (Nat.le_of_not_lt hin)] at h
      cases h

theorem moofsFrom_ge {position : ℕ} {boxes : List TopBox} {moof : ℕ × MoofBox}
    (h : moof ∈ moofsFrom total position boxes) : position ≤ moof.1 := by
  induction boxes generalizing position with
  | nil => cases h
  | cons box rest ih =>
    by_cases hin : position < total
    · cases hbody : box.body with
      | moof first =>
        rw [moofsFrom_moof rest hin hbody, List.mem_cons] at h
        obtain rfl | h := h
        · exact Nat.le_refl _
        · exact Nat.le_trans (Nat.le_add_right ..) (ih h)
      | mdat =>
        rw [moofsFrom_other rest hin (by rw [hbody]; rintro _ ⟨⟩)] at h
        exact Nat.le_trans (Nat.le_add_right ..) (ih h)
      | other =>
        rw [moofsFrom_other rest hin (by rw [hbody]; rintro _ ⟨⟩)] at h
        exact Nat.le_trans (Nat.le_add_right ..) (ih h)
    · rw [moofsFrom_end _ (Nat.le_of_not_lt hin)] at h
      cases h

theorem boxesBetween_between {first last position : ℕ} {boxes : List TopBox}
    (hfirst : first ≤ position)
    (hlast : last ≤ ((moofsFrom total position boxes).head?.map Prod.fst).getD total)
    (htotal : last ≤ total) :
    ∀ box ∈ boxesBetween first last position boxes, ∀ moof, box.body ≠ .moof moof := by
  induction boxes generalizing position with
  | nil => exact fun _ h => absurd h List.not_mem_nil
  | cons box rest ih =>
    rw [boxesBetween, if_neg (Nat.not_lt_of_le hfirst)]
    by_cases hin : position < last
    · have hbody : ∀ moof, box.body ≠ .moof moof := by
        intro moof hbody
        rw [moofsFrom_moof rest (Nat.lt_of_lt_of_le hin htotal) hbody] at hlast
        exact Nat.not_lt_of_le hlast hin
      rw [moofsFrom_other rest (Nat.lt_of_lt_of_le hin htotal) hbody] at hlast
      rw [if_pos hin]
      exact List.forall_mem_cons.mpr
        ⟨hbody, ih (Nat.le_trans hfirst (Nat.le_add_right ..)) hlast⟩
    · rw [if_neg hin]
      exact fun _ h => absurd h List.not_mem_nil

theorem moofsFrom_none {position : ℕ} {boxes : List TopBox}
    (h : ∀ box ∈ boxes, ∀ moof, box.body ≠ .moof moof) : moofsFrom total position boxes = [] := by
  induction boxes generalizing position with
  | nil => rfl
  | cons box rest ih =>
    rw [List.forall_mem_cons] at h
    by_cases hin : position < total
    · rw [moofsFrom_other rest hin h.1]
      exact ih h.2
    · exact moofsFrom_end _ (Nat.le_of_not_lt hin)

theorem paced_alone {position : ℕ} {boxes : List TopBox} (prev : Option ℕ) {pace : Pace}
    (h : pace ∈ paced total prev (moofsFrom total position boxes)) :
    position ≤ pace.start ∧ moofsFrom (pace.finish - pace.start) 0
      (boxesBetween pace.start pace.finish position boxes) = [(0, pace.moof)] := by
  induction boxes generalizing position prev with
  | nil => cases h
  | cons box rest ih =>
    by_cases hin : position < total
    · have hcovers := box.covers
      have hlater (prev : Option ℕ)
          (hrest : pace ∈ paced total prev (moofsFrom total (position + box.size) rest)) :
          position ≤ pace.start ∧ moofsFrom (pace.finish - pace.start) 0
            (boxesBetween pace.start pace.finish position (box :: rest)) = [(0, pace.moof)] := by
        obtain ⟨hle, hmoofs⟩ := ih prev hrest
        rw [boxesBetween, if_pos (by omega)]
        exact ⟨by omega, hmoofs⟩
      by_cases hbody : ∀ moof, box.body ≠ .moof moof
      · rw [moofsFrom_other rest hin hbody] at h
        exact hlater prev h
      · push Not at hbody
        obtain ⟨moof, hbody⟩ := hbody
        rw [moofsFrom_moof rest hin hbody, paced] at h
        rcases List.mem_cons.mp h with rfl | h
        · -- the fragment ends at the next moof, or at the end of the file
          have hafter : position < ((moofsFrom total (position + box.size) rest).head?.map
              Prod.fst).getD total ∧ ((moofsFrom total (position + box.size) rest).head?.map
              Prod.fst).getD total ≤ total := by
            cases hnext : moofsFrom total (position + box.size) rest with
            | nil => exact ⟨hin, Nat.le_refl _⟩
            | cons next others =>
              have hmem : next ∈ moofsFrom total (position + box.size) rest :=
                hnext ▸ List.mem_cons_self
              have hge := moofsFrom_ge hmem
              have hlt := moofsFrom_lt hmem
              simp only [List.head?_cons, Option.map_some, Option.getD_some]
              omega
          refine ⟨Nat.le_refl _, ?_⟩
          dsimp only
          rw [boxesBetween, if_neg (Nat.lt_irrefl _), if_pos hafter.1,
            moofsFrom_moof _ (by omega) hbody]
          refine congrArg (List.cons _) (moofsFrom_none ?_)
          exact boxesBetween_between (Nat.le_add_right ..) (Nat.le_refl _) hafter.2
        · exact hlater _ h
    · rw [moofsFrom_end _ (Nat.le_of_not_lt hin)] at h
      cases h

theorem moofsFrom_sorted (total position : ℕ) (boxes : List TopBox) :
    (moofsFrom total position boxes).Pairwise fun a b => a.1 ≤ b.1 := by
  induction boxes generalizing position with
  | nil => exact .nil
  | cons box rest ih =>
    by_cases hin : position < total
    · by_cases hbody : ∀ moof, box.body ≠ .moof moof
      · rw [moofsFrom_other rest hin hbody]
        exact ih _
      · push Not at hbody
        obtain ⟨moof, hbody⟩ := hbody
        rw [moofsFrom_moof rest hin hbody, List.pairwise_cons]
        refine ⟨fun other hother => ?_, ih _⟩
        exact Nat.le_trans (Nat.le_add_right ..) (moofsFrom_ge hother)
    · rw [moofsFrom_end _ (Nat.le_of_not_lt hin)]
      exact .nil

theorem paced_moofs (total : ℕ) (prev : Option ℕ) (moofs : List (ℕ × MoofBox)) :
    (paced total prev moofs).map (fun pace => (pace.start, pace.moof)) = moofs := by
  induction moofs generalizing prev with
  | nil => rfl
  | cons moof rest ih => exact congrArg (List.cons _) (ih _)

theorem paced_ordered (total : ℕ) (prev : Option ℕ) {moofs : List (ℕ × MoofBox)}
    (hsorted : moofs.Pairwise fun a b => a.1 ≤ b.1) :
    (paced total prev moofs).Pairwise fun a b => a.finish ≤ b.start := by
  induction moofs generalizing prev with
  | nil => exact .nil
  | cons moof rest ih =>
    rw [List.pairwise_cons] at hsorted
    rw [paced, List.pairwise_cons]
    refine ⟨fun pace hpace => ?_, ih _ hsorted.2⟩
    have hmem : (pace.start, pace.moof) ∈ rest := by
      rw [← paced_moofs total
        (some (saturatingAdd (leadStart prev moof.2) (leadTicks moof.2))) rest]
      exact List.mem_map_of_mem hpace
    cases rest with
    | nil => cases hmem
    | cons next others =>
      rcases List.mem_cons.mp hmem with heq | hmem
      · exact Nat.le_of_eq (congrArg Prod.fst heq).symm
      · exact (List.pairwise_cons.mp hsorted.2).1 _ hmem

theorem trunSamples_lie {fragment : Fragment} {count index byteCursor decodeTicks after : ℕ}
    {samples : List Sample}
    (h : trunSamples total trun tfhd count index byteCursor decodeTicks = .ok (samples, after))
    (hlies : RunLies fragment trun tfhd count index byteCursor) :
    ∀ s ∈ samples, Holds fragment s := by
  induction count generalizing index byteCursor decodeTicks after samples with
  | zero =>
    cases h
    exact fun _ h => absurd h List.not_mem_nil
  | succ count ih =>
    rw [trunSamples] at h
    obtain ⟨size, hsize, h⟩ := except_bind h
    obtain ⟨hstart, hfirst, hfinish, hrest⟩ := hlies size hsize
    dsimp only at h
    split at h
    · cases h
    · split at h
      · cases h
      · obtain ⟨⟨rest, last⟩, hsamples, h⟩ := except_bind h
        cases h
        exact List.forall_mem_cons.mpr ⟨⟨hstart, hfirst, hfinish⟩, ih hsamples hrest⟩

theorem trunsSamples_lie {fragment : Fragment} {moofStart decodeTicks : ℕ}
    {truns : List TrunBox} {samples : List Sample}
    (h : trunsSamples total moofStart tfhd truns decodeTicks = .ok samples)
    (hlies : ∀ trun ∈ truns, RunLies fragment trun tfhd trun.sampleCount.toNat 0
      (runStart moofStart tfhd trun)) : ∀ s ∈ samples, Holds fragment s := by
  induction truns generalizing decodeTicks samples with
  | nil =>
    cases h
    exact fun _ h => absurd h List.not_mem_nil
  | cons trun rest ih =>
    rw [List.forall_mem_cons] at hlies
    rw [trunsSamples] at h
    obtain ⟨⟨first, after⟩, hfirst, h⟩ := except_bind h
    obtain ⟨others, hothers, h⟩ := except_bind h
    cases h
    exact List.forall_mem_append.mpr ⟨trunSamples_lie hfirst hlies.1, ih hothers hlies.2⟩

theorem collectSamples_lie {fragment : Fragment} {moof : MoofBox} {moofStart : ℕ}
    {trackId : UInt32} {samples : List Sample}
    (h : collectSamples moof moofStart trackId total = .ok samples)
    (hlies : ∀ traf ∈ trafOf moof trackId, ∀ trun ∈ traf.truns,
      RunLies fragment trun traf.tfhd trun.sampleCount.toNat 0
        (runStart moofStart traf.tfhd trun)) : ∀ s ∈ samples, Holds fragment s := by
  rw [collectSamples] at h
  cases htraf : trafOf moof trackId with
  | none =>
    rw [htraf] at h
    cases h
  | some traf =>
    rw [htraf] at h
    exact trunsSamples_lie h (hlies traf htraf)

theorem samplesOf_none {fragment : Fragment} {samples : List Sample}
    (h : ∀ s ∈ samples, ¬ Holds fragment s) : samplesOf fragment samples = [] :=
  List.filter_eq_nil_iff.mpr fun s hs => by simpa using h s hs

theorem samplesOf_all {fragment : Fragment} {samples : List Sample}
    (h : ∀ s ∈ samples, Holds fragment s) : samplesOf fragment samples = samples :=
  List.filter_eq_self.mpr fun s hs => by simpa using h s hs

theorem samplesOf_append (fragment : Fragment) (a b : List Sample) :
    samplesOf fragment (a ++ b) = samplesOf fragment a ++ samplesOf fragment b :=
  List.filter_append ..

theorem related_mem {α β : Type*} {R : α → β → Prop} {l : List α} {m : List β} {a : α}
    (h : List.Forall₂ R l m) (ha : a ∈ l) : ∃ b ∈ m, R a b := by
  induction h with
  | nil => cases ha
  | cons hfirst _ ih =>
    rcases List.mem_cons.mp ha with rfl | ha
    · exact ⟨_, List.mem_cons_self, hfirst⟩
    · obtain ⟨b, hb, hab⟩ := ih ha
      exact ⟨b, List.mem_cons_of_mem _ hb, hab⟩

theorem samplesOf_groups {R : Pace → List Sample → Prop} {paces : List Pace}
    {groups : List (List Sample)}
    (hheld : List.Forall₂ (fun pace group => R pace group ∧ ∀ s ∈ group, Holds pace.fragment s)
      paces groups)
    (hordered : paces.Pairwise fun a b => a.finish ≤ b.start) (before : List Sample)
    (hbefore : ∀ pace ∈ paces, ∀ s ∈ before, ¬ Holds pace.fragment s) :
    List.Forall₂ (fun pace group => R pace group ∧
      samplesOf pace.fragment (before ++ groups.flatten) = group) paces groups := by
  induction hheld generalizing before with
  | nil => exact .nil
  | @cons pace group paces groups hgroup hheld ih =>
    obtain ⟨hfirst, hordered⟩ := List.pairwise_cons.mp hordered
    rw [List.forall_mem_cons] at hbefore
    rw [List.flatten_cons]
    refine .cons ⟨hgroup.1, ?_⟩ ?_
    · have hlater : ∀ s ∈ groups.flatten, ¬ Holds pace.fragment s := by
        intro s hs hholds
        obtain ⟨later, hlater, hs⟩ := List.mem_flatten.mp hs
        obtain ⟨other, hother, _, hsin⟩ := related_mem hheld.flip hlater
        have hafter := hfirst other hother
        have hin : other.start < s.finish := (hsin s hs).2.1
        have hout : s.finish ≤ pace.finish := hholds.2.2
        omega
      rw [samplesOf_append, samplesOf_append, samplesOf_none hbefore.1, samplesOf_all hgroup.2,
        samplesOf_none hlater, List.nil_append, List.append_nil]
    · rw [← List.append_assoc]
      refine ih hordered _ fun other hother => ?_
      refine List.forall_mem_append.mpr ⟨hbefore.2 other hother, fun s hs hholds => ?_⟩
      have hafter := hfirst other hother
      have hin : s.finish ≤ pace.finish := (hgroup.2 s hs).2.2
      have hout : other.start < s.finish := hholds.2.1
      omega

theorem groups_paced {mp4 : Mp4} {trackId : UInt32} {groups : List (List Sample)}
    (h : sampleGroups trackId mp4.total 0 mp4.boxes = .ok groups) :
    List.Forall₂ (fun pace group =>
      collectSamples pace.moof pace.start trackId mp4.total = .ok group) (paces mp4) groups := by
  have hgroups := sampleGroups_moofs _ _ _ _ h
  rw [← paced_moofs mp4.total none (moofsFrom mp4.total 0 mp4.boxes),
    List.forall₂_map_left_iff] at hgroups
  exact hgroups

theorem readSamples_ok {mp4 : Mp4} {trackId : UInt32} {samples : List Sample} :
    readSamples mp4 trackId = .ok samples ↔
      ∃ groups, sampleGroups trackId mp4.total 0 mp4.boxes = .ok groups ∧
        groups.flatten = samples := by
  rw [readSamples]
  cases sampleGroups trackId mp4.total 0 mp4.boxes with
  | error error => exact iff_of_false (fun h => by cases h) (fun ⟨_, h, _⟩ => by cases h)
  | ok groups =>
    constructor
    · intro h
      cases h
      exact ⟨groups, rfl, rfl⟩
    · rintro ⟨_, h, rfl⟩
      cases h
      rfl

theorem whole_samples {mp4 : Mp4} {trackId : UInt32} {samples : List Sample}
    (hplaced : RunsPlaced mp4 trackId) (h : readSamples mp4 trackId = .ok samples) :
    ∀ pace ∈ paces mp4, collectSamples pace.moof pace.start trackId mp4.total =
      .ok (samplesOf pace.fragment samples) := by
  obtain ⟨groups, hgroups, rfl⟩ := readSamples_ok.mp h
  have hruns := hplaced ((sampleGroups_ok ..).mp ⟨groups, hgroups⟩)
  have hpaced := groups_paced hgroups
  have hheld : List.Forall₂ (fun pace group =>
      collectSamples pace.moof pace.start trackId mp4.total = .ok group ∧
        ∀ s ∈ group, Holds pace.fragment s) (paces mp4) groups := by
    have hboth := (List.forall₂_and_left (p := fun pace => pace ∈ paces mp4) _ _).mpr
      ⟨fun _ hpace => hpace, hpaced⟩
    exact hboth.imp fun pace group h => ⟨h.2, collectSamples_lie h.2 (hruns pace h.1)⟩
  have hfound := samplesOf_groups hheld (paced_ordered _ _ (moofsFrom_sorted ..)) []
    fun _ _ _ hs => absurd hs List.not_mem_nil
  intro pace hpace
  obtain ⟨group, _, hcollect, hsame⟩ := related_mem hfound hpace
  rw [hcollect, ← hsame]
  rfl

theorem alone_samples {mp4 : Mp4} {trackId : UInt32} {pace : Pace} {samples : List Sample}
    (hpace : pace ∈ paces mp4)
    (h : readSamples (alone mp4 pace.start pace.finish) trackId = .ok samples) :
    collectSamples pace.moof 0 trackId (pace.finish - pace.start) = .ok samples := by
  obtain ⟨groups, hgroups, rfl⟩ := readSamples_ok.mp h
  have hmoofs := sampleGroups_moofs _ _ _ _ hgroups
  have halone : moofsFrom (pace.finish - pace.start) 0
      (boxesBetween pace.start pace.finish 0 mp4.boxes) = [(0, pace.moof)] :=
    (paced_alone none hpace).2
  simp only [alone] at hmoofs
  rw [halone] at hmoofs
  cases hmoofs with
  | cons hsamples hrest =>
    cases hrest
    rw [List.flatten_cons, List.flatten_nil, List.append_nil]
    exact hsamples

theorem read_fragments {mp4 : Mp4} {layout : Fmp4Layout} (h : Fmp4Layout.read mp4 = some layout) :
    fragmentsOf mp4.total none mp4.moofs = some layout.fragments := by
  rw [Fmp4Layout.read] at h
  obtain ⟨first, _, h⟩ := Option.bind_eq_some_iff.mp h
  obtain ⟨trak, _, h⟩ := Option.bind_eq_some_iff.mp h
  split at h
  · cases h
  · split at h
    · cases h
    · obtain ⟨fragments, hfragments, h⟩ := Option.bind_eq_some_iff.mp h
      cases h
      exact hfragments

/-- Where the runs lie in the fragments of their moofs, the sample table agrees with the layout
exactly if each enumerated moof is timed alike by its first traf and by the traf of the track: the
layout reads the first traf and carries a missing start over, the table reads the track's traf and
starts a missing one at zero. -/
theorem tables_agree_iff_times_match (mp4 : Mp4) (layout : Fmp4Layout) (trackId : UInt32)
    (hlayout : Fmp4Layout.read mp4 = some layout) (hplaced : RunsPlaced mp4 trackId) :
    TablesAgree mp4 layout trackId ↔ TimesMatch mp4 trackId := by
  obtain ⟨hfragments, hlasting⟩ := fragmentsOf_paced (read_fragments hlayout)
  have hmem {pace : Pace} (hpace : pace ∈ paces mp4) : pace.fragment ∈ layout.fragments := by
    rw [hfragments]
    exact List.mem_map_of_mem hpace
  have hfrom {fragment : Fragment} (hfragment : fragment ∈ layout.fragments) :
      ∃ pace ∈ paces mp4, pace.fragment = fragment := by
    rw [hfragments] at hfragment
    exact List.mem_map.mp hfragment
  constructor
  · intro hagree pace hpace henum
    rcases henum with hwhole | halone
    · obtain ⟨groups, hgroups⟩ := (sampleGroups_ok ..).mpr hwhole
      have hread := readSamples_ok.mpr ⟨groups, hgroups, rfl⟩
      exact (agrees_iff (hlasting pace hpace) (whole_samples hplaced hread pace hpace)).mp
        (hagree.whole _ hread _ (hmem hpace))
    · obtain ⟨groups, hgroups⟩ := (sampleGroups_ok ..).mpr halone
      have hread := readSamples_ok.mpr ⟨groups, hgroups, rfl⟩
      exact (agrees_iff (hlasting pace hpace) (alone_samples hpace hread)).mp
        (hagree.alone _ (hmem hpace) _ hread)
  · intro hmatch
    constructor
    · intro samples hread fragment hfragment
      obtain ⟨pace, hpace, rfl⟩ := hfrom hfragment
      obtain ⟨groups, hgroups, _⟩ := readSamples_ok.mp hread
      exact (agrees_iff (hlasting pace hpace) (whole_samples hplaced hread pace hpace)).mpr
        (hmatch pace hpace (.inl ((sampleGroups_ok ..).mp ⟨groups, hgroups⟩)))
    · intro fragment hfragment samples hread
      obtain ⟨pace, hpace, rfl⟩ := hfrom hfragment
      obtain ⟨groups, hgroups, _⟩ := readSamples_ok.mp hread
      exact (agrees_iff (hlasting pace hpace) (alone_samples hpace hread)).mpr
        (hmatch pace hpace (.inr ((sampleGroups_ok ..).mp ⟨groups, hgroups⟩)))

/-- A traf of one run of four-byte samples, all of one duration. -/
def evenTraf (trackId : UInt32) (tfdt : Option UInt64) (dataOffset : ℤ) (count duration : UInt32) :
    TrafBox where
  tfhd :=
    { flags := flagDefaultBaseIsMoof, trackId, baseDataOffset := none
      defaultSampleDuration := some duration, defaultSampleSize := some 4 }
  tfdt := tfdt
  truns := [⟨0, count, some dataOffset, [], [], rfl⟩]

def moofBox (trafs : List TrafBox) : TopBox := ⟨100, .moof ⟨trafs⟩, by decide⟩

def mdatBox : TopBox := ⟨16, .mdat, by decide⟩

def headBox : TopBox := ⟨40, .other, by decide⟩

def singleTrack : Mp4 where
  traks := [⟨2, .mp4a, 44100⟩]
  boxes := [headBox, moofBox [evenTraf 2 (some 0) 108 2 1024], mdatBox,
    moofBox [evenTraf 2 (some 2048) 108 1 1024], mdatBox]
  total := 272

theorem singleTrack_paces : paces singleTrack =
    [⟨40, 156, none, ⟨[evenTraf 2 (some 0) 108 2 1024]⟩⟩,
      ⟨156, 272, some 2048, ⟨[evenTraf 2 (some 2048) 108 1 1024]⟩⟩] := rfl

theorem singleTrack_placed : RunsPlaced singleTrack 2 := by
  intro _ pace hpace traf htraf trun htrun
  rw [singleTrack_paces] at hpace
  rcases List.mem_pair.mp hpace with rfl | rfl
  · cases htraf
    cases List.mem_singleton.mp htrun
    rintro _ ⟨⟩
    refine ⟨by decide, by decide, by decide, ?_⟩
    rintro _ ⟨⟩
    exact ⟨by decide, by decide, by decide, trivial⟩
  · cases htraf
    cases List.mem_singleton.mp htrun
    rintro _ ⟨⟩
    exact ⟨by decide, by decide, by decide, trivial⟩

theorem singleTrack_agrees :
    TablesAgree singleTrack ⟨40, [⟨40, 156, 0, 2048⟩, ⟨156, 272, 2048, 1024⟩], 44100⟩ 2 := by
  refine (tables_agree_iff_times_match singleTrack _ 2 (by decide) singleTrack_placed).mpr ?_
  intro pace hpace _ traf htraf
  rw [singleTrack_paces] at hpace
  rcases List.mem_pair.mp hpace with rfl | rfl
  · cases htraf
    exact ⟨by decide, by decide, by decide⟩
  · cases htraf
    exact ⟨by decide, by decide, by decide⟩

/-- A fragment of a video and an audio track, two fragments of which the second has no start of
its own, and two of which the first has its sample among the bytes of the second. -/
def videoFirst : Mp4 where
  traks := [⟨1, .known, 90000⟩, ⟨2, .mp4a, 44100⟩]
  boxes := [headBox,
    moofBox [evenTraf 1 (some 0) 108 1 3000, evenTraf 2 (some 0) 108 2 1024], mdatBox]
  total := 156

def startless : Mp4 where
  traks := [⟨2, .mp4a, 44100⟩]
  boxes := [headBox, moofBox [evenTraf 2 (some 0) 108 2 1024], mdatBox,
    moofBox [evenTraf 2 none 108 1 1024], mdatBox]
  total := 272

def stray : Mp4 where
  traks := [⟨2, .mp4a, 44100⟩]
  boxes := [headBox, moofBox [evenTraf 2 (some 0) 224 1 1024], mdatBox,
    moofBox [evenTraf 2 (some 1024) 112 1 1024], mdatBox]
  total := 272

theorem tables_differ :
    (∃ layout, Fmp4Layout.read videoFirst = some layout ∧ ¬ TablesAgree videoFirst layout 2) ∧
    (∃ layout, Fmp4Layout.read startless = some layout ∧ ¬ TablesAgree startless layout 2) ∧
      ∃ layout, Fmp4Layout.read stray = some layout ∧ ¬ TablesAgree stray layout 2 := by
  refine ⟨?_, ?_, ?_⟩
  · refine ⟨⟨40, [⟨40, 156, 0, 3000⟩], 44100⟩, by decide, fun hagree => ?_⟩
    have hread : readSamples videoFirst 2 =
        .ok [⟨148, 152, 1024, 0⟩, ⟨152, 156, 1024, 1024⟩] := by rfl
    have hduration := (hagree.whole _ hread _ List.mem_cons_self).duration
    exact absurd hduration (by decide)
  · refine ⟨⟨40, [⟨40, 156, 0, 2048⟩, ⟨156, 272, 2048, 1024⟩], 44100⟩, by decide, fun hagree => ?_⟩
    have hread : readSamples startless 2 =
        .ok [⟨148, 152, 1024, 0⟩, ⟨152, 156, 1024, 1024⟩, ⟨264, 268, 1024, 0⟩] := by rfl
    obtain ⟨first, hhead, hstart⟩ :=
      (hagree.whole _ hread _ (List.mem_cons_of_mem _ List.mem_cons_self)).first
    cases hhead
    exact absurd hstart (by decide)
  · refine ⟨⟨40, [⟨40, 156, 0, 1024⟩, ⟨156, 272, 1024, 1024⟩], 44100⟩, by decide, fun hagree => ?_⟩
    have hread : readSamples stray 2 =
        .ok [⟨264, 268, 1024, 0⟩, ⟨268, 272, 1024, 1024⟩] := by rfl
    have hduration := (hagree.whole _ hread _ List.mem_cons_self).duration
    exact absurd hduration (by decide)

end FragmentTimes

import Kithara.AnalysisRoundTrip
import Mathlib.Data.List.Perm.Subperm
import Mathlib.Data.List.Nodup

/-! Frame coverage as bytes, both ways. What the writer wrote reads back; and what the reader
accepts is what the writer writes of the answer, so there is one encoding of each set of frames
and a run list in any other shape is refused. -/
namespace CoverageBlobs

open RangeRuns ByteReaders AnalysisBlobs

theorem stops_lt {runs : List (ℕ × ℕ)} (h : Canonical runs) :
    (runs.map Prod.snd).Pairwise (· < ·) := by
  rw [List.pairwise_map]
  refine h.2.imp_of_mem ?_
  intro r s _ hs hrs
  exact hrs.trans (h.1 s hs)

theorem coverage_length (c : Coverage) : c.set.runs.length < 2 ^ 64 := by
  have hnodup : (0 :: c.set.runs.map Prod.snd).Nodup := by
    refine List.nodup_cons.mpr ⟨?_, (stops_lt c.set.canonical).imp fun h => h.ne⟩
    intro hzero
    obtain ⟨r, hr, hr0⟩ := List.mem_map.mp hzero
    have := c.set.canonical.1 r hr
    omega
  have hsub : 0 :: c.set.runs.map Prod.snd ⊆ List.range (2 ^ 64) := by
    intro x hx
    rw [List.mem_range]
    rcases List.mem_cons.mp hx with rfl | hx
    · exact Nat.two_pow_pos 64
    · obtain ⟨r, hr, rfl⟩ := List.mem_map.mp hx
      exact c.fits r hr
  have hle := (List.subperm_of_subset hnodup hsub).length_le
  rw [List.length_cons, List.length_map, List.length_range] at hle
  exact hle

theorem readU64_undoes : Undoes readU64 writeU64 := by
  intro bytes x rest h
  obtain ⟨value, hvalue, rfl⟩ := reader_map_ok.mp h
  have hlt : value < 2 ^ 64 := readNat_lt hvalue
  rw [readNat_undoes _ _ _ hvalue, writeU64, UInt64.toNat_ofNat_of_lt' hlt]

theorem readLen_undoes : Undoes readLen writeLen := by
  intro bytes x rest h
  obtain ⟨value, hvalue, rfl⟩ := reader_map_ok.mp h
  have hlt := value.toNat_lt
  have hmin : min value.toNat (2 ^ 64 - 1) = value.toNat := by omega
  rw [readU64_undoes _ _ _ hvalue, writeLen, hmin, UInt64.ofNat_toNat]

theorem readCount_ok {item count : ℕ} {bytes rest : Bytes}
    (h : readCount item bytes = .ok (count, rest)) :
    bytes = writeLen count ++ rest ∧ min (count * item) (2 ^ 64 - 1) ≤ rest.length := by
  simp only [readCount, reader_bind_ok] at h
  obtain ⟨n, more, hlen, left, more', hleft, u, more'', hcheck, h⟩ := h
  cases hleft
  obtain ⟨hfits, rfl⟩ := check_ok hcheck
  cases h
  exact ⟨readLen_undoes _ _ _ hlen, hfits⟩

/-- The reader took the bytes of some runs, and each joined the set past all it held. -/
theorem readRuns_ok {n : ℕ} {previousEnd : Option ℕ} {held c : Coverage} {bytes rest : Bytes}
    (hheld : ∀ r ∈ held.set.runs, ∃ last ∈ previousEnd, r.2 ≤ last)
    (h : readRuns n previousEnd held bytes = .ok (c, rest)) :
    ∃ runs, runs.length = n ∧ bytes = runs.flatMap writeRun ++ rest ∧
      c.set.runs = held.set.runs ++ runs := by
  induction n generalizing previousEnd held bytes with
  | zero =>
    cases h
    exact ⟨[], rfl, rfl, (List.append_nil _).symm⟩
  | succ n ih =>
    rw [readRuns] at h
    obtain ⟨start, more, hstart, h⟩ := reader_bind_ok.mp h
    obtain ⟨frames, more', hframes, h⟩ := reader_bind_ok.mp h
    split at h
    · cases h
    · next hok =>
      simp only [not_or, not_not] at hok
      obtain ⟨hpositive, hwhole, horder⟩ := hok
      have hfits : min (start.toNat + frames.toNat) (2 ^ 64 - 1) < 2 ^ 64 := by omega
      change readRuns n _ (held.insert start.toNat _ hfits) more' = _ at h
      revert h hwhole hfits
      generalize min (start.toNat + frames.toNat) (2 ^ 64 - 1) = stop
      intro hwhole hfits h
      have hpast : ∀ r ∈ held.set.runs, r.2 < start.toNat := by
        intro r hr
        obtain ⟨last, hlast, hle⟩ := hheld r hr
        rw [Option.mem_def] at hlast
        subst hlast
        simp only [Option.any_some, decide_eq_true_eq, not_le] at horder
        omega
      have hlt : start.toNat < stop := by
        have hne : frames.toNat ≠ 0 := fun hzero => hpositive (UInt64.toNat_inj.mp hzero)
        omega
      have hinsert : (held.insert start.toNat stop hfits).set.runs =
          held.set.runs ++ [(start.toNat, stop)] := by
        rw [← insertRun_past hpast]
        simp [Coverage.insert, RangeSet.insert, hlt]
      have hheld' : ∀ r ∈ (held.insert start.toNat stop hfits).set.runs,
          ∃ last ∈ some stop, r.2 ≤ last := by
        intro r hr
        refine ⟨stop, rfl, ?_⟩
        rw [hinsert] at hr
        rcases List.mem_append.mp hr with hr | hr
        · have := hpast r hr
          omega
        · cases List.mem_singleton.mp hr
          exact le_rfl
      obtain ⟨runs, hlength, hbytes, hruns⟩ := ih hheld' h
      refine ⟨(start.toNat, stop) :: runs, ?_, ?_, ?_⟩
      · rw [List.length_cons, hlength]
      · rw [readU64_undoes _ _ _ hstart, readU64_undoes _ _ _ hframes, hbytes, List.flatMap_cons,
          writeRun, hwhole, UInt64.ofNat_toNat, UInt64.ofNat_toNat, List.append_assoc,
          List.append_assoc]
      · rw [hruns, hinsert, List.append_assoc, List.singleton_append]

theorem readCoverage_undoes : Undoes readCoverage writeCoverage := by
  intro bytes c rest h
  unfold readCoverage at h
  obtain ⟨count, more, hcount, h⟩ := reader_bind_ok.mp h
  obtain ⟨runs, hlength, hmore, hruns⟩ := readRuns_ok (fun r hr => absurd hr List.not_mem_nil) h
  have hall : c.set.runs = runs := hruns
  rw [(readCount_ok hcount).1, hmore, writeCoverage, hall, hlength, List.append_assoc]

def writeWords (run : UInt64 × UInt64) : Bytes := writeU64 run.1 ++ writeU64 run.2

theorem writeU64_inj {x y : UInt64} {rest rest' : Bytes}
    (h : writeU64 x ++ rest = writeU64 y ++ rest') : x = y ∧ rest = rest' := by
  have hx := reads_u64 x rest
  rw [h, reads_u64 y rest'] at hx
  cases hx
  exact ⟨rfl, rfl⟩

theorem runs_of_words {raw : List (UInt64 × UInt64)} {runs : List (ℕ × ℕ)} {rest rest' : Bytes}
    (hlength : raw.length = runs.length)
    (h : raw.flatMap writeWords ++ rest = runs.flatMap writeRun ++ rest') :
    raw = runs.map (fun run => (UInt64.ofNat run.1, UInt64.ofNat (run.2 - run.1))) := by
  induction raw generalizing runs with
  | nil =>
    rw [List.length_nil, eq_comm, List.length_eq_zero_iff] at hlength
    rw [hlength, List.map_nil]
  | cons word raw ih =>
    cases runs with
    | nil => cases hlength
    | cons run runs =>
      simp only [List.flatMap_cons, writeWords, writeRun, List.append_assoc] at h
      obtain ⟨hstart, h⟩ := writeU64_inj h
      obtain ⟨hframes, h⟩ := writeU64_inj h
      rw [List.map_cons, ← ih (Nat.succ.inj hlength) h, ← hstart, ← hframes]

/-- Nonempty runs in ascending order, no two touching and none past the last word. -/
def WellFormed (raw : List (UInt64 × UInt64)) : Prop :=
  (∀ run ∈ raw, run.2 ≠ 0 ∧ run.1.toNat + run.2.toNat < 2 ^ 64) ∧
    raw.Pairwise fun run next => run.1.toNat + run.2.toNat < next.1.toNat

theorem words_wellFormed (c : Coverage) : WellFormed
    (c.set.runs.map fun run => (UInt64.ofNat run.1, UInt64.ofNat (run.2 - run.1))) := by
  have hword : ∀ run ∈ c.set.runs, (UInt64.ofNat run.1).toNat = run.1 ∧
      (UInt64.ofNat (run.2 - run.1)).toNat = run.2 - run.1 ∧ run.1 < run.2 ∧ run.2 < 2 ^ 64 := by
    intro run hrun
    have hlt := c.set.canonical.1 run hrun
    have hfits := c.fits run hrun
    have hstart : run.1 < 2 ^ 64 := by omega
    have hframes : run.2 - run.1 < 2 ^ 64 := by omega
    exact ⟨UInt64.toNat_ofNat_of_lt' hstart, UInt64.toNat_ofNat_of_lt' hframes, hlt, hfits⟩
  constructor
  · intro word hmem
    obtain ⟨run, hrun, rfl⟩ := List.mem_map.mp hmem
    obtain ⟨hstart, hframes, hlt, hfits⟩ := hword run hrun
    dsimp only
    refine ⟨?_, by omega⟩
    intro hzero
    rw [hzero] at hframes
    have : (0 : UInt64).toNat = 0 := rfl
    omega
  · rw [List.pairwise_map]
    refine c.set.canonical.2.imp_of_mem ?_
    intro run next hrun hnext hapart
    obtain ⟨hstart, hframes, hlt, _⟩ := hword run hrun
    obtain ⟨hstart', _, _, _⟩ := hword next hnext
    dsimp only
    omega

/-- Every set of frames reads back from its encoding, which is all that is taken; whatever reads
back as a set is its encoding; a count is refused unless its runs fit in what is left; and a run
list that is accepted has nonempty runs in ascending order, none touching or overflowing. -/
theorem coverage_canonical :
    (∀ c rest, readCoverage (writeCoverage c ++ rest) = .ok (c, rest)) ∧
    (∀ bytes c rest, readCoverage bytes = .ok (c, rest) → bytes = writeCoverage c ++ rest) ∧
    (∀ bytes count rest, bytes.length < 2 ^ 64 → readCount 16 bytes = .ok (count, rest) →
      count * 16 ≤ rest.length) ∧
    (∀ (raw : List (UInt64 × UInt64)) c rest rest', raw.length < 2 ^ 64 →
      readCoverage (writeLen raw.length ++ raw.flatMap writeWords ++ rest) = .ok (c, rest') →
      WellFormed raw) := by
  refine ⟨fun c rest => reads_coverage (coverage_length c) rest, readCoverage_undoes, ?_, ?_⟩
  · intro bytes count rest hbytes h
    obtain ⟨rfl, hfits⟩ := readCount_ok h
    rw [List.length_append, writeLen_length] at hbytes
    omega
  · intro raw c rest rest' hlength h
    have hbytes := readCoverage_undoes _ _ _ h
    rw [writeCoverage, List.append_assoc, List.append_assoc] at hbytes
    have hcount : raw.length = c.set.runs.length := by
      have hraw := reads_len hlength (raw.flatMap writeWords ++ rest)
      rw [hbytes, reads_len (coverage_length c)] at hraw
      exact (congrArg Prod.fst (Except.ok.inj hraw)).symm
    rw [hcount] at hbytes
    rw [runs_of_words hcount (List.append_cancel_left hbytes)]
    exact words_wellFormed c

end CoverageBlobs

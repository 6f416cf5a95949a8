import Kithara.ChunkedCommit

/-! What a crash or a failing step leaves of a chunked commit, for every sequence of writes and
every ending. -/
namespace ChunkedCommit

open StorageMemory

variable {s s₀ : State} {c : CommitInput} {file : FileData}

structure Ready (s : State) (file : FileData) : Prop where
  tmp : s.disk.tmp = some file
  claimed : s.claimed = true
  fresh : s.original = {}
  unopened : s.reopened = none
  unrenamed : s.renamed = false
  bytes : file.bytes = (List.range file.bytes.length).map s.written
  beyond : ∀ p, file.bytes.length ≤ p → s.written p = 0
  unmapped : s.mapped = false → file.bytes = []

theorem open_ready (options : Options) (canonical : Option FileData) :
    Ready (openWithBarrier options canonical) ⟨List.replicate options.initialLen 0, false⟩ := by
  refine ⟨rfl, rfl, rfl, rfl, rfl, ?_, fun p _ => rfl, ?_⟩
  · simp [openWithBarrier]
  · intro h
    have hzero : options.initialLen = 0 := by simpa [openWithBarrier] using h
    simp [hzero]

theorem getD_range_map {written : ℕ → UInt8} {n p : ℕ} (h : p < n) :
    ((List.range n).map written)[p]? = some (written p) := by
  simp [h]

theorem eq_range_map {bytes : List UInt8} {written : ℕ → UInt8}
    (h : ∀ p, p < bytes.length → bytes[p]? = some (written p)) :
    bytes = (List.range bytes.length).map written := by
  refine List.ext_getElem? fun p => ?_
  by_cases hp : p < bytes.length
  · rw [h p hp, getD_range_map hp]
  · rw [List.getElem?_eq_none (by omega), List.getElem?_eq_none (by simp; omega)]

theorem ensureLen_reads {bytes : List UInt8} {written : ℕ → UInt8} {n : ℕ}
    (hbytes : bytes = (List.range bytes.length).map written)
    (hbeyond : ∀ p, bytes.length ≤ p → written p = 0) :
    ∀ p, p < (ensureLen bytes n).length → (ensureLen bytes n)[p]? = some (written p) := by
  intro p hp
  rw [ensureLen] at hp ⊢
  by_cases hin : p < bytes.length
  · rw [List.getElem?_append_left hin, hbytes]
    exact getD_range_map (by simpa using hin)
  · rw [List.getElem?_append_right (by omega), hbeyond p (by omega), List.getElem?_replicate]
    rw [List.length_append, List.length_replicate] at hp
    exact if_pos (by omega)

theorem grown_reads {written : ℕ → UInt8} (options : Options) {mapped : Bool}
    {bytes : List UInt8} (finish : ℕ)
    (hbytes : bytes = (List.range bytes.length).map written)
    (hbeyond : ∀ p, bytes.length ≤ p → written p = 0) (hunmapped : mapped = false → bytes = []) :
    (∀ p, p < (grown options mapped bytes finish).length →
      (grown options mapped bytes finish)[p]? = some (written p)) ∧
      bytes.length ≤ (grown options mapped bytes finish).length ∧
      finish ≤ (grown options mapped bytes finish).length := by
  have hkept : ∀ p, p < bytes.length → bytes[p]? = some (written p) := by
    intro p hp
    rw [hbytes]
    exact getD_range_map (by simpa using hp)
  cases mapped with
  | true =>
    by_cases hroom : finish > bytes.length
    · have heq : grown options true bytes finish =
          ensureLen bytes (max finish (bytes.length * options.growthFactor)) := if_pos hroom
      rw [heq]
      refine ⟨ensureLen_reads hbytes hbeyond, ?_, ?_⟩
      · rw [ensureLen_length]
        omega
      · rw [ensureLen_length]
        omega
    · have heq : grown options true bytes finish = bytes := if_neg hroom
      rw [heq]
      exact ⟨hkept, le_rfl, by omega⟩
  | false =>
    have hzero : ∀ p, written p = 0 := by
      intro p
      exact hbeyond p (by rw [hunmapped rfl]; exact Nat.zero_le p)
    have heq : grown options false bytes finish =
        List.replicate (max finish options.initialLen) 0 := by
      refine if_neg ?_
      simp
    rw [heq, hunmapped rfl]
    refine ⟨?_, Nat.zero_le _, ?_⟩
    · intro p hp
      rw [List.length_replicate] at hp
      rw [List.getElem?_replicate, if_pos hp, hzero]
    · rw [List.length_replicate]
      exact le_max_left _ _

/-- What is in the file after the write: its data where it wrote, and the rest as before. -/
theorem updateRegion_reads {bytes : List UInt8} {w : Write} (hroom : w.finish ≤ bytes.length)
    {p : ℕ} : (updateRegion bytes w)[p]? =
      if w.offset ≤ p ∧ p < w.finish then w.data[p - w.offset]? else bytes[p]? := by
  have hfinish : w.finish = w.offset + w.data.length := rfl
  have htake : (bytes.take w.offset).length = w.offset := by
    rw [List.length_take]
    omega
  rw [updateRegion]
  by_cases hbefore : p < w.offset
  · rw [if_neg (by omega), List.append_assoc, List.getElem?_append_left (by omega),
      List.getElem?_take, if_pos hbefore]
  · by_cases hin : p < w.finish
    · rw [if_pos ⟨by omega, hin⟩, List.append_assoc, List.getElem?_append_right (by omega),
        List.getElem?_append_left (by omega), htake]
    · rw [if_neg (by omega), List.getElem?_append_right (by rw [List.length_append]; omega),
        List.getElem?_drop, List.length_append, htake]
      congr 1
      omega

theorem updateRegion_length {bytes : List UInt8} {w : Write} (hroom : w.finish ≤ bytes.length) :
    (updateRegion bytes w).length = bytes.length := by
  have hfinish : w.finish = w.offset + w.data.length := rfl
  rw [updateRegion, List.length_append, List.length_append, List.length_take, List.length_drop]
  omega

theorem writeAt_ready (h : Ready s file) (w : Write) : ∃ file', Ready (s.writeAt w) file' := by
  rw [State.writeAt]
  split
  · exact ⟨file, h⟩
  rw [h.tmp]
  dsimp only
  split
  · exact ⟨file, h⟩
  obtain ⟨hreads, hlonger, hroom⟩ := grown_reads s.options w.finish
    h.bytes h.beyond h.unmapped
  split
  · refine ⟨_, rfl, h.claimed, h.fresh, h.unopened, h.unrenamed, eq_range_map hreads, ?_, ?_⟩
    · intro p hp
      exact h.beyond p (Nat.le_trans hlonger hp)
    · exact fun hmapped => absurd hmapped.symm Bool.false_ne_true
  · have hlength := updateRegion_length hroom
    refine ⟨_, rfl, h.claimed, h.fresh, h.unopened, h.unrenamed, eq_range_map ?_, ?_, ?_⟩
    · intro p hp
      dsimp only at hp ⊢
      rw [hlength] at hp
      rw [updateRegion_reads hroom]
      by_cases hin : w.offset ≤ p ∧ p < w.finish
      · have hdata : p - w.offset < w.data.length := by
          have hfinish : w.finish = w.offset + w.data.length := rfl
          omega
        rw [if_pos hin, if_pos hin, List.getD_eq_getElem?_getD,
          List.getElem?_eq_getElem hdata, Option.getD_some]
      · rw [if_neg hin, if_neg hin]
        exact hreads p hp
    · intro p hp
      dsimp only at hp ⊢
      rw [hlength] at hp
      rw [if_neg (by omega)]
      exact h.beyond p (Nat.le_trans hlonger hp)
    · exact fun hmapped => absurd hmapped.symm Bool.false_ne_true

theorem writes_ready (options : Options) (canonical : Option FileData) (writes : List Write) :
    ∃ file, Ready (writes.foldl State.writeAt (openWithBarrier options canonical)) file := by
  have hrun : ∀ s file, Ready s file → ∃ file', Ready (writes.foldl State.writeAt s) file' := by
    induction writes with
    | nil => exact fun s file h => ⟨file, h⟩
    | cons w writes ih =>
      intro s file h
      obtain ⟨file', h'⟩ := writeAt_ready h w
      exact ih _ file' h'
  exact hrun _ _ (open_ready options canonical)

def trimmed (c : CommitInput) (file : FileData) : List UInt8 :=
  ((c.trims file).map file.bytes.take).getD file.bytes

structure Succeeds (s₀ : State) (file : FileData) (c : CommitInput) : Prop where
  healthy : c.healthy = true
  trim : (c.trims file).isSome = true → c.setLen = true
  sync : s₀.options.barrier = .inline → c.syncData = true
  rename : c.rename = true

def State.holding (s : State) (file : FileData) : State :=
  { s with claimed := false, mapped := false, disk := ⟨s.disk.canonical, some file⟩ }

def State.moved (s : State) (file : FileData) : State :=
  { s with claimed := false, mapped := false, disk := ⟨some file, none⟩, renamed := true }

def State.settled (s : State) (c : CommitInput) : State :=
  { s with
    original := { s.original with committed := true, finalLen := c.finalLen }
    reopened := some { committed := true, finalLen := c.finalLen } }

/-- What is renamed: the bytes as trimmed, synced where the commit syncs. -/
structure Carried (s₀ : State) (file : FileData) (c : CommitInput) (f : FileData) : Prop where
  bytes : f.bytes = trimmed c file
  synced : s₀.options.barrier = .inline → f.synced = true

inductive Underway (s₀ : State) (file : FileData) (c : CommitInput) :
    ℕ → State × Stage → Prop where
  | begun : Underway s₀ file c 0 ({ s₀ with claimed := false }, .release)
  | released (h : c.healthy = true) : Underway s₀ file c 1 (s₀.holding file, .trim)
  | trimmed {f : FileData} (h : c.healthy = true)
      (ht : (c.trims file).isSome = true → c.setLen = true) (hf : f.bytes = trimmed c file) :
      Underway s₀ file c 2 (s₀.holding f, .sync)
  | synced {f : FileData} (h : c.healthy = true)
      (ht : (c.trims file).isSome = true → c.setLen = true)
      (hs : s₀.options.barrier = .inline → c.syncData = true) (hf : Carried s₀ file c f) :
      Underway s₀ file c 3 (s₀.holding f, .rename)
  | moved {f : FileData} (h : Succeeds s₀ file c) (hf : Carried s₀ file c f) :
      Underway s₀ file c 4 (s₀.moved f, .reopen)
  | reopened {f : FileData} (h : Succeeds s₀ file c) (hf : Carried s₀ file c f)
      (hr : c.reopen = true) :
      Underway s₀ file c 5 ({ s₀.moved f with reopened := some {} }, .publish)
  | done {f : FileData} {n} (h : Succeeds s₀ file c) (hf : Carried s₀ file c f)
      (hr : c.reopen = true) (hn : 6 ≤ n) :
      Underway s₀ file c n ((s₀.moved f).settled c, .returned true)
  | refused {t : State} {n} (h : ¬Succeeds s₀ file c) (ht : t.disk.canonical = s₀.disk.canonical)
      (hkept : t.disk.tmp.isSome = true) (hclaim : t.claimed = false) (hrenamed : t.renamed = false)
      (hfresh : t.original = {}) (hunopened : t.reopened = none) :
      Underway s₀ file c n (t.fail, .returned false)
  | lost {f : FileData} {n} (h : Succeeds s₀ file c) (hf : Carried s₀ file c f)
      (hr : c.reopen = false) (hn : 5 ≤ n) :
      Underway s₀ file c n ((s₀.moved f).fail, .returned false)

theorem holding_ready (h : Ready s₀ file) :
    { s₀ with claimed := false, mapped := false } = s₀.holding file := by
  have hdisk : s₀.disk = ⟨s₀.disk.canonical, some file⟩ := by
    rw [← h.tmp]
  rw [State.holding, ← hdisk]

theorem holding_refused {f : FileData} (h : Ready s₀ file) (hfail : ¬Succeeds s₀ file c) (n : ℕ) :
    Underway s₀ file c n ((s₀.holding f).fail, .returned false) :=
  .refused hfail rfl rfl rfl h.unrenamed h.fresh h.unopened

theorem step_underway (h : Ready s₀ file) {n : ℕ} {p : State × Stage}
    (hp : Underway s₀ file c n p) : Underway s₀ file c (n + 1) (commitStep c p) := by
  cases hp with
  | begun =>
    rw [commitStep]
    cases hhealthy : c.healthy with
    | true =>
      rw [if_pos rfl]
      have hheld := holding_ready h
      exact hheld ▸ .released hhealthy
    | false =>
      rw [if_neg Bool.false_ne_true]
      refine .refused (fun hok => ?_) rfl ?_ rfl h.unrenamed h.fresh h.unopened
      · rw [hok.healthy] at hhealthy
        exact Bool.false_ne_true hhealthy.symm
      · exact h.tmp ▸ rfl
  | released hhealthy =>
    have htmp : (s₀.holding file).disk.tmp.bind c.trims = c.trims file := rfl
    rw [commitStep, htmp]
    cases htrims : c.trims file with
    | none =>
      refine .trimmed hhealthy ?_ ?_
      · rw [htrims]
        exact fun hsome => absurd hsome.symm (by simp)
      · rw [ChunkedCommit.trimmed, htrims]
        rfl
    | some len =>
      dsimp only
      cases hset : c.setLen with
      | true =>
        rw [if_pos rfl]
        refine .trimmed (f := ⟨file.bytes.take len, false⟩) hhealthy (fun _ => hset) ?_
        rw [ChunkedCommit.trimmed, htrims]
        rfl
      | false =>
        rw [if_neg Bool.false_ne_true]
        refine holding_refused h (fun hok => ?_) _
        have hset' := hok.trim (by rw [htrims]; rfl)
        rw [hset] at hset'
        exact Bool.false_ne_true hset'
  | @trimmed f hhealthy htrim hf =>
    rw [commitStep]
    cases hbarrier : s₀.options.barrier with
    | deferred =>
      have hb : (s₀.holding f).options.barrier = .deferred := hbarrier
      rw [hb]
      refine .synced hhealthy htrim ?_ ⟨hf, ?_⟩
      · rw [hbarrier]
        simp
      · rw [hbarrier]
        simp
    | inline =>
      have hb : (s₀.holding f).options.barrier = .inline := hbarrier
      rw [hb]
      dsimp only
      cases hsync : c.syncData with
      | true =>
        rw [if_pos rfl]
        exact .synced (f := { f with synced := true }) hhealthy htrim (fun _ => hsync)
          ⟨hf, fun _ => rfl⟩
      | false =>
        rw [if_neg Bool.false_ne_true]
        refine holding_refused h (fun hok => ?_) _
        have hsync' := hok.sync hbarrier
        rw [hsync] at hsync'
        exact Bool.false_ne_true hsync'
  | synced hhealthy htrim hsync hf =>
    rw [commitStep]
    cases hrename : c.rename with
    | true => exact .moved ⟨hhealthy, htrim, hsync, hrename⟩ hf
    | false =>
      rw [if_neg Bool.false_ne_true]
      refine holding_refused h (fun hok => ?_) _
      rw [hok.rename] at hrename
      exact Bool.false_ne_true hrename.symm
  | moved hok hf =>
    rw [commitStep]
    cases hreopen : c.reopen with
    | true => exact .reopened hok hf hreopen
    | false => exact .lost hok hf hreopen (le_refl 5)
  | reopened hok hf hreopen => exact .done hok hf hreopen (le_refl 6)
  | done hok hf hreopen hn => exact .done hok hf hreopen (Nat.le_succ_of_le hn)
  | refused hfail ht hkept hclaim hrenamed hfresh hunopened =>
    exact .refused hfail ht hkept hclaim hrenamed hfresh hunopened
  | lost hok hf hreopen hn => exact .lost hok hf hreopen (Nat.le_succ_of_le hn)

theorem commit_underway (h : Ready s₀ file) (c : CommitInput) (n : ℕ) :
    Underway s₀ file c n (s₀.commit c n) := by
  have hrun : ∀ n m p, Underway s₀ file c m p → Underway s₀ file c (m + n) (commitSteps c n p) := by
    intro n
    induction n with
    | zero => exact fun m p hp => hp
    | succ n ih =>
      intro m p hp
      have hnext := ih (m + 1) _ (step_underway h hp)
      rwa [Nat.add_right_comm] at hnext
  have hn := hrun n 0 _ (show Underway s₀ file c 0 _ from .begun)
  rwa [Nat.zero_add] at hn

structure Kept (s t : State) : Prop where
  canonical : t.disk.canonical = s.disk.canonical
  tmp : t.disk.tmp.isSome = true
  claimed : t.claimed = false
  renamed : t.renamed = false
  uncommitted : t.inner.committed = false

/-- The commit has renamed `f`, and `whole` says that it also returned. -/
structure Published (t : State) (f : FileData) (whole : Prop) (len : Option ℕ) : Prop where
  disk : t.disk = ⟨some f, none⟩
  claimed : t.claimed = false
  renamed : t.renamed = true
  committed : ∀ l, t.status = .committed l ↔ whole ∧ l = len

/-- `Err`: the writer is failed, and so are the readers that have it from before. -/
def FailedAt (p : State × Stage) : Prop :=
  p.2 = .returned false → p.1.status = .failed ∧ p.1.original.failed = true

theorem fail_failed {t : State} (h : t.reopened = none) (ok : Bool) :
    FailedAt (t.fail, .returned ok) := by
  intro _
  rw [State.status, State.inner, State.fail, State.setInner, h]
  exact ⟨rfl, rfl⟩

theorem underway_failed (h : Ready s₀ file) {n : ℕ} {p : State × Stage}
    (hp : Underway s₀ file c n p) : FailedAt p := by
  cases hp with
  | refused _ _ _ _ _ _ hunopened => exact fail_failed hunopened _
  | @lost f _ _ _ _ _ => exact fail_failed (t := s₀.moved f) h.unopened _
  | done _ _ _ _ =>
    intro hreturned
    cases hreturned
  | _ =>
    intro hreturned
    cases hreturned

theorem underway_leaves (h : Ready s₀ file) {n : ℕ} {p : State × Stage}
    (hp : Underway s₀ file c n p) :
    (Kept s₀ p.1 ∧ ¬(Succeeds s₀ file c ∧ 4 ≤ n)) ∨
      (Succeeds s₀ file c ∧ 4 ≤ n ∧ ∃ f, Carried s₀ file c f ∧
        Published p.1 f (c.reopen = true ∧ 6 ≤ n) c.finalLen) := by
  have hfresh : s₀.inner.committed = false := by
    rw [State.inner, h.unopened, Option.getD_none, h.fresh]
  have hheld : ∀ f, Kept s₀ (s₀.holding f) := by
    intro f
    exact ⟨rfl, rfl, rfl, h.unrenamed, hfresh⟩
  cases hp with
  | begun =>
    have htmp : s₀.disk.tmp.isSome = true := by
      rw [h.tmp]
      rfl
    exact .inl ⟨⟨rfl, htmp, rfl, h.unrenamed, hfresh⟩, by omega⟩
  | released _ => exact .inl ⟨hheld _, by omega⟩
  | trimmed _ _ _ => exact .inl ⟨hheld _, by omega⟩
  | synced _ _ _ _ => exact .inl ⟨hheld _, by omega⟩
  | refused hfail hcanonical htmp hclaim hrenamed hfresh hunopened =>
    refine .inl ⟨?_, fun hok => hfail hok.1⟩
    rw [State.fail, State.setInner, hunopened]
    refine ⟨hcanonical, htmp, hclaim, hrenamed, ?_⟩
    rw [State.inner, State.inner, hunopened]
    exact congrArg Core.committed hfresh
  | @moved f hok hf =>
    refine .inr ⟨hok, le_refl 4, f, hf, rfl, rfl, rfl, fun l => ?_⟩
    have hstatus : (s₀.moved f).status = .active := by
      rw [State.status, State.inner, State.moved, h.unopened, h.fresh]
      rfl
    rw [hstatus]
    constructor
    · intro hc
      cases hc
    · omega
  | @reopened f hok hf _ =>
    refine .inr ⟨hok, by omega, f, hf, rfl, rfl, rfl, fun l => ?_⟩
    have hstatus : ({ s₀.moved f with reopened := some {} } : State).status = .active := rfl
    rw [hstatus]
    constructor
    · intro hc
      cases hc
    · omega
  | @done f _ hok hf hreopen hn =>
    refine .inr ⟨hok, by omega, f, hf, rfl, rfl, rfl, fun l => ?_⟩
    have hstatus : ((s₀.moved f).settled c).status = .committed c.finalLen := rfl
    rw [hstatus]
    constructor
    · intro hc
      cases hc
      exact ⟨⟨hreopen, hn⟩, rfl⟩
    · intro hc
      rw [hc.2]
  | @lost f _ hok hf hreopen hn =>
    have hstatus : (s₀.moved f).fail.status = .failed :=
      (fail_failed (t := s₀.moved f) h.unopened false rfl).1
    refine .inr ⟨hok, by omega, f, hf, ?_, ?_, ?_, fun l => ?_⟩
    · rw [State.fail, State.setInner, State.moved, h.unopened]
      rfl
    · rw [State.fail, State.setInner, State.moved, h.unopened]
      rfl
    · rw [State.fail, State.setInner, State.moved, h.unopened]
      rfl
    · rw [hstatus]
      constructor
      · intro hc
        cases hc
      · intro hc
        rw [hreopen] at hc
        exact absurd hc.1.1 Bool.false_ne_true

/-- Without the claim an exit leaves the disk alone, and with it removes the temp file at most. -/
structure Exits (t u : State) : Prop where
  canonical : u.disk.canonical = t.disk.canonical
  renamed : u.renamed = t.renamed
  claimed : t.claimed = false → u.claimed = false
  kept : t.claimed = false → u.disk = t.disk
  held : t.claimed = true → u.claimed = true ∨ u.disk.tmp = none
  gone : t.disk.tmp = none → u.disk.tmp = none

theorem exits_refl (t : State) : Exits t t :=
  ⟨rfl, rfl, id, fun _ => rfl, Or.inl, id⟩

theorem exits_trans {t u v : State} (htu : Exits t u) (huv : Exits u v) : Exits t v where
  canonical := huv.canonical.trans htu.canonical
  renamed := huv.renamed.trans htu.renamed
  claimed := fun h => huv.claimed (htu.claimed h)
  kept := fun h => (huv.kept (htu.claimed h)).trans (htu.kept h)
  held := fun h => (htu.held h).elim huv.held fun hnone => Or.inr (huv.gone hnone)
  gone := fun h => huv.gone (htu.gone h)

theorem exits_setInner (t : State) (core : Core) : Exits t (t.setInner core) := by
  rw [State.setInner]
  split
  · exact ⟨rfl, rfl, id, fun _ => rfl, Or.inl, id⟩
  · exact ⟨rfl, rfl, id, fun _ => rfl, Or.inl, id⟩

theorem setInner_claimed (t : State) (core : Core) : (t.setInner core).claimed = t.claimed := by
  rw [State.setInner]
  split
  · rfl
  · rfl

theorem setInner_disk (t : State) (core : Core) : (t.setInner core).disk = t.disk := by
  rw [State.setInner]
  split
  · rfl
  · rfl

theorem exits_removeTmp (t : State) : Exits t t.removeTmp := by
  rw [State.removeTmp]
  split
  · rename_i hclaimed
    have hne : t.claimed ≠ false := by simp [hclaimed]
    exact ⟨rfl, rfl, fun _ => rfl, fun h => absurd h hne, fun _ => Or.inr rfl, fun _ => rfl⟩
  · exact exits_refl t

theorem exits_after (t : State) (a : After) : Exits t (t.after a) := by
  cases a with
  | fail => exact exits_trans (exits_setInner t _) (exits_removeTmp _)
  | abandon => exact exits_setInner t _

theorem exits_afters (t : State) (as : List After) : Exits t (as.foldl State.after t) := by
  induction as generalizing t with
  | nil => exact exits_refl t
  | cons a as ih => exact exits_trans (exits_after t a) (ih _)

theorem exits_drop (t : State) : Exits t t.drop := by
  rw [State.drop]
  split
  · exact exits_trans (exits_removeTmp t) (exits_setInner _ _)
  · exact exits_removeTmp t

theorem exits_run (e : Ending) (s : State) : Exits (e.committed s).1 (e.run s) := by
  rw [Ending.run]
  split
  · exact exits_refl _
  · dsimp only
    split
    · exact exits_trans (exits_afters _ _) (exits_drop _)
    · exact exits_afters _ _

theorem removeTmp_removes {t : State} (h : t.claimed = true ∨ t.disk.tmp = none) :
    t.removeTmp.disk.tmp = none := by
  rw [State.removeTmp]
  split
  · rfl
  · rename_i hclaimed
    exact h.resolve_left hclaimed

theorem failWriter_removes {t : State} (h : t.claimed = true ∨ t.disk.tmp = none) :
    t.failWriter.disk.tmp = none := by
  refine removeTmp_removes ?_
  rw [State.fail, setInner_claimed, setInner_disk]
  exact h

theorem drop_removes {t : State} (h : t.claimed = true ∨ t.disk.tmp = none) :
    t.drop.disk.tmp = none := by
  rw [State.drop]
  split
  · rw [State.fail, setInner_disk]
    exact removeTmp_removes h
  · exact removeTmp_removes h

theorem afters_removes {as : List After} (hfail : .fail ∈ as) :
    ∀ {t : State}, t.claimed = true ∨ t.disk.tmp = none →
      (as.foldl State.after t).disk.tmp = none := by
  induction as with
  | nil => cases hfail
  | cons a as ih =>
    intro t h
    cases a with
    | fail => exact (exits_afters _ as).gone (failWriter_removes h)
    | abandon =>
      refine ih ((List.mem_cons.mp hfail).resolve_left (by simp)) ?_
      exact h.elim (exits_after t .abandon).held fun hnone => Or.inr ((exits_after t _).gone hnone)

def State.visible (s : State) : Option (List UInt8) := s.disk.canonical.map FileData.bytes

def State.promised (s : State) (c : CommitInput) : List UInt8 :=
  (List.range (c.finalLen.getD ((s.disk.tmp.map fun f => f.bytes.length).getD 0))).map s.written

/-- The writer `s` ends as `e` says, and every part of crash safety holds. -/
structure Safe (s : State) (e : Ending) : Prop where
  visible : (e.run s).visible = s.visible ∨
    ∃ p, e.commit = some p ∧ (e.run s).visible = some (s.promised p.1)
  synced : s.options.barrier = .inline → (e.committed s).1.renamed = true →
    ∃ f, (e.run s).disk.canonical = some f ∧ f.synced = true
  removed : e.crashed = false → .fail ∈ e.afters ∨ e.dropped = true →
    (e.run s).renamed = false → (e.run s).disk.tmp = none
  left : (e.committed s).1.renamed = true → ∀ disk (as : List After),
    (as.foldl State.after { (e.committed s).1 with disk := disk }).disk = disk ∧
      (as.foldl State.after { (e.committed s).1 with disk := disk }).drop.disk = disk
  failed : (e.committed s).2 = some (.returned false) →
    (e.committed s).1.status = .failed ∧ (e.committed s).1.original.failed = true
  committed : ∀ len, (e.committed s).1.status = .committed len → ∃ p, e.commit = some p ∧
    len = p.1.finalLen ∧ (e.committed s).1.visible = some (s.promised p.1)

/-- The file is as long as the commit says, and is cut to it where it is longer. -/
def Fits (file : FileData) (c : CommitInput) : Prop :=
  ∀ len, c.finalLen = some len →
    len ≤ file.bytes.length ∧ (file.bytes.length ≤ len ∨ c.metadata = true)

/-- `whole`: a commit that comes to its rename, the fourth step, fits; or it renames the very
bytes that were there and does not come to its end. `cleared`: a writer that is failed or dropped
after its commit has not failed before the rename. -/
structure Sound (s : State) (e : Ending) : Prop where
  whole : ∀ file c crash, s.disk.tmp = some file → e.commit = some (c, crash) →
    Succeeds s file c → 4 ≤ crash.getD commitLength →
      Fits file c ∨ (s.visible = some (trimmed c file) ∧
        ¬(c.reopen = true ∧ commitLength ≤ crash.getD commitLength))
  cleared : ∀ file c, s.disk.tmp = some file → e.commit = some (c, none) →
    .fail ∈ e.afters ∨ e.dropped = true → Succeeds s file c

theorem promised_eq (h : Ready s file) (c : CommitInput) :
    s.promised c = (List.range (c.finalLen.getD file.bytes.length)).map s.written := by
  rw [State.promised, h.tmp]
  rfl

theorem trimmed_promised (h : Ready s file) (c : CommitInput) :
    trimmed c file = s.promised c ↔ Fits file c := by
  have hlength : ∀ len, file.bytes = (List.range len).map s.written ↔ file.bytes.length = len := by
    intro len
    constructor
    · intro heq
      rw [heq, List.length_map, List.length_range]
    · rintro rfl
      exact h.bytes
  rw [promised_eq h, trimmed, CommitInput.trims]
  cases hlen : c.finalLen with
  | none =>
    have hfits : Fits file c := fun len heq => by simp [hlen] at heq
    exact iff_of_true h.bytes hfits
  | some len =>
    have hfits : Fits file c ↔
        len ≤ file.bytes.length ∧ (file.bytes.length ≤ len ∨ c.metadata = true) := by
      rw [Fits, hlen]
      simp
    rw [hfits, Option.filter_some]
    by_cases hcut : (c.metadata && decide (len < file.bytes.length)) = true
    · rw [if_pos hcut]
      rw [Bool.and_eq_true, decide_eq_true_eq] at hcut
      refine iff_of_true ?_ ⟨hcut.2.le, Or.inr hcut.1⟩
      rw [Option.map_some, Option.getD_some, Option.getD_some, h.bytes, ← List.map_take,
        List.take_range, min_eq_left hcut.2.le]
    · rw [if_neg hcut]
      rw [Bool.and_eq_true, decide_eq_true_eq] at hcut
      rw [Option.map_none, Option.getD_none, Option.getD_some, hlength]
      constructor
      · rintro rfl
        exact ⟨le_rfl, Or.inl le_rfl⟩
      · rintro ⟨hle, hge | hmetadata⟩
        · omega
        · by_contra hne
          exact hcut ⟨hmetadata, by omega⟩

theorem run_visible (e : Ending) (s : State) : (e.run s).visible = (e.committed s).1.visible := by
  rw [State.visible, (exits_run e s).canonical, State.visible]

theorem uncommitted_safe (h : Ready s file) (he : e.commit = none) : Safe s e := by
  have hcommitted : e.committed s = (s, none) := by
    rw [Ending.committed, he]
  have hstatus : s.status = .active := by
    rw [State.status, State.inner, h.unopened, h.fresh]
    rfl
  have hheld : s.claimed = true ∨ s.disk.tmp = none := Or.inl h.claimed
  refine ⟨Or.inl ?_, ?_, ?_, ?_, ?_, ?_⟩
  · rw [run_visible, hcommitted]
  · intro _ hrenamed
    rw [hcommitted, h.unrenamed] at hrenamed
    cases hrenamed
  · intro hcrashed hexit _
    rw [Ending.run, hcrashed, hcommitted, if_neg Bool.false_ne_true]
    dsimp only
    rcases hexit with hfail | hdropped
    · split
      · exact (exits_drop _).gone (afters_removes hfail hheld)
      · exact afters_removes hfail hheld
    · rw [if_pos hdropped]
      exact drop_removes (hheld.elim (exits_afters s _).held fun hnone =>
        Or.inr ((exits_afters s _).gone hnone))
  · intro hrenamed
    rw [hcommitted, h.unrenamed] at hrenamed
    cases hrenamed
  · intro hreturned
    rw [hcommitted] at hreturned
    cases hreturned
  · intro len hlen
    rw [hcommitted, hstatus] at hlen
    cases hlen

theorem kept_safe_iff {crash : Option ℕ} (he : e.commit = some (c, crash))
    (hkept : Kept s (e.committed s).1)
    (hfailed : (e.committed s).2 = some (.returned false) →
      (e.committed s).1.status = .failed ∧ (e.committed s).1.original.failed = true) :
    Safe s e ↔ ¬(crash = none ∧ (.fail ∈ e.afters ∨ e.dropped = true)) := by
  have hcrashed : e.crashed = crash.isSome := by
    rw [Ending.crashed, he]
    rfl
  have hrun : (e.run s).disk = (e.committed s).1.disk := (exits_run e s).kept hkept.claimed
  constructor
  · rintro hsafe ⟨rfl, hexit⟩
    have hgone := hsafe.removed hcrashed hexit ((exits_run e s).renamed.trans hkept.renamed)
    rw [hrun] at hgone
    have htmp := hkept.tmp
    rw [hgone] at htmp
    cases htmp
  · intro hquiet
    refine ⟨Or.inl ?_, ?_, ?_, ?_, hfailed, ?_⟩
    · rw [run_visible, State.visible, hkept.canonical, State.visible]
    · intro _ hrenamed
      rw [hkept.renamed] at hrenamed
      cases hrenamed
    · intro halive hexit _
      rw [hcrashed] at halive
      exact absurd ⟨by simpa using halive, hexit⟩ hquiet
    · intro hrenamed
      rw [hkept.renamed] at hrenamed
      cases hrenamed
    · intro len hlen
      rw [State.status, Core.status, hkept.uncommitted, if_neg Bool.false_ne_true] at hlen
      split at hlen
      · cases hlen
      · cases hlen

/-- A commit that renamed is safe when what it renamed is the committed prefix, or is what was
there before and is not said to be committed. -/
theorem published_safe_iff {crash : Option ℕ} {f : FileData} {whole : Prop}
    (he : e.commit = some (c, crash)) (hcarried : Carried s file c f)
    (hpublished : Published (e.committed s).1 f whole c.finalLen)
    (hfailed : (e.committed s).2 = some (.returned false) →
      (e.committed s).1.status = .failed ∧ (e.committed s).1.original.failed = true) :
    Safe s e ↔ trimmed c file = s.promised c ∨
      (s.visible = some (trimmed c file) ∧ ¬whole) := by
  have hvisible : (e.committed s).1.visible = some (trimmed c file) := by
    rw [State.visible, hpublished.disk, Option.map_some, hcarried.bytes]
  constructor
  · intro hsafe
    by_cases hwhole : whole
    · obtain ⟨p, hp, -, hbytes⟩ := hsafe.committed _ ((hpublished.committed _).mpr ⟨hwhole, rfl⟩)
      rw [he, Option.some_inj] at hp
      rw [hvisible, Option.some_inj, ← hp] at hbytes
      exact Or.inl hbytes
    · rcases hsafe.visible with hsame | ⟨p, hp, hbytes⟩
      · rw [run_visible, hvisible] at hsame
        exact Or.inr ⟨hsame.symm, hwhole⟩
      · rw [he, Option.some_inj] at hp
        rw [run_visible, hvisible, Option.some_inj, ← hp] at hbytes
        exact Or.inl hbytes
  · intro hsound
    refine ⟨?_, ?_, ?_, ?_, hfailed, ?_⟩
    · rw [run_visible, hvisible]
      rcases hsound with hfits | ⟨hsame, -⟩
      · exact Or.inr ⟨_, he, congrArg some hfits⟩
      · exact Or.inl hsame.symm
    · intro hinline _
      refine ⟨f, ?_, hcarried.synced hinline⟩
      rw [(exits_run e s).canonical, hpublished.disk]
    · intro _ _ hrenamed
      rw [(exits_run e s).renamed, hpublished.renamed] at hrenamed
      cases hrenamed
    · intro _ disk as
      have hafters := exits_afters { (e.committed s).1 with disk := disk } as
      have hdrop := exits_trans hafters (exits_drop _)
      exact ⟨hafters.kept hpublished.claimed, hdrop.kept hpublished.claimed⟩
    · intro len hlen
      obtain ⟨hwhole, rfl⟩ := (hpublished.committed len).mp hlen
      refine ⟨_, he, rfl, ?_⟩
      rw [hvisible, hsound.resolve_right fun hsame => hsame.2 hwhole]

theorem safe_iff_sound (h : Ready s file) (e : Ending) : Safe s e ↔ Sound s e := by
  have hfile : ∀ file', s.disk.tmp = some file' → file' = file := by
    intro file' heq
    rw [h.tmp, Option.some_inj] at heq
    exact heq.symm
  cases hcommit : e.commit with
  | none =>
    refine iff_of_true (uncommitted_safe h hcommit) ⟨?_, ?_⟩
    · intro file' c crash _ he
      rw [hcommit] at he
      cases he
    · intro file' c _ he
      rw [hcommit] at he
      cases he
  | some p =>
    obtain ⟨c, crash⟩ := p
    have hcommitted : e.committed s =
        ((s.commit c (crash.getD commitLength)).1,
          some (s.commit c (crash.getD commitLength)).2) := by
      rw [Ending.committed, hcommit]
    have hunderway := commit_underway h c (crash.getD commitLength)
    have hfailed : (e.committed s).2 = some (.returned false) →
        (e.committed s).1.status = .failed ∧ (e.committed s).1.original.failed = true := by
      rw [hcommitted]
      intro hreturned
      exact underway_failed h hunderway (Option.some_inj.mp hreturned)
    have hsame : ∀ c' crash', e.commit = some (c', crash') → c' = c ∧ crash' = crash := by
      intro c' crash' he
      rw [hcommit, Option.some_inj, Prod.mk.injEq] at he
      exact ⟨he.1.symm, he.2.symm⟩
    rcases underway_leaves h hunderway with ⟨hkept, hshort⟩ | ⟨hok, hlong, f, hcarried, hpublished⟩
    · rw [kept_safe_iff hcommit (by rwa [hcommitted]) hfailed]
      constructor
      · intro hquiet
        refine ⟨?_, ?_⟩
        · intro file' c' crash' htmp he hok hlong
          obtain rfl := hfile file' htmp
          obtain ⟨rfl, rfl⟩ := hsame _ _ he
          exact absurd ⟨hok, hlong⟩ hshort
        · intro file' c' _ he hexit
          exact absurd ⟨(hsame _ _ he).2.symm, hexit⟩ hquiet
      · rintro hsound ⟨rfl, hexit⟩
        exact hshort ⟨hsound.cleared file c h.tmp hcommit hexit, by decide⟩
    · rw [published_safe_iff hcommit hcarried (by rwa [hcommitted]) hfailed, trimmed_promised h]
      constructor
      · intro hfits
        refine ⟨?_, ?_⟩
        · intro file' c' crash' htmp he _ _
          obtain rfl := hfile file' htmp
          obtain ⟨rfl, rfl⟩ := hsame _ _ he
          exact hfits
        · intro file' c' htmp he _
          obtain rfl := hfile file' htmp
          obtain ⟨rfl, -⟩ := hsame _ _ he
          exact hok
      · intro hsound
        exact hsound.whole file c crash h.tmp hcommit hok hlong

theorem writeAt_canonical (s : State) (w : Write) :
    (s.writeAt w).disk.canonical = s.disk.canonical := by
  rw [State.writeAt]
  split
  · rfl
  · split
    · rfl
    · split
      · rfl
      · dsimp only
        split
        · rfl
        · rfl

theorem writes_visible (s : State) (writes : List Write) :
    (writes.foldl State.writeAt s).visible = s.visible := by
  induction writes generalizing s with
  | nil => rfl
  | cons w writes ih =>
    refine (ih (s.writeAt w)).trans ?_
    rw [State.visible, writeAt_canonical, State.visible]

/-- For every sequence of writes and every ending: the writes leave the canonical file as it was
opened, and crash safety holds exactly when a commit that comes to its rename has a final length the
file reaches and is cut to, and a commit that does not is not followed by `fail` or a drop. -/
theorem crash_safe_iff (options : Options) (canonical : Option FileData) (writes : List Write)
    (e : Ending) :
    (writes.foldl State.writeAt (openWithBarrier options canonical)).visible =
        canonical.map FileData.bytes ∧
      (Safe (writes.foldl State.writeAt (openWithBarrier options canonical)) e ↔
        Sound (writes.foldl State.writeAt (openWithBarrier options canonical)) e) := by
  obtain ⟨file, h⟩ := writes_ready options canonical writes
  exact ⟨writes_visible _ writes, safe_iff_sound h e⟩

/-- Four bytes are written; the rename fails, and the drop leaves the temp file. Or the length of
the file cannot be asked, and all four bytes are renamed where two were committed. -/
theorem crash_unsafe :
    ¬ Safe ([⟨0, [1, 2, 3, 4], true, true⟩].foldl State.writeAt
        (openWithBarrier ⟨.inline, 4, 2⟩ none))
        ⟨some (⟨some 4, true, true, true, true, false, true⟩, none), [], true⟩ ∧
      ¬ Safe ([⟨0, [1, 2, 3, 4], true, true⟩].foldl State.writeAt
        (openWithBarrier ⟨.inline, 4, 2⟩ none))
        ⟨some (⟨some 2, true, false, true, true, true, true⟩, none), [], true⟩ := by
  constructor
  · intro hsafe
    have hgone := hsafe.removed rfl (Or.inr rfl) rfl
    cases hgone
  · intro hsafe
    rcases hsafe.visible with hsame | ⟨p, hp, hbytes⟩
    · cases hsame
    · cases hp
      revert hbytes
      decide

end ChunkedCommit

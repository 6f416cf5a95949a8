import Kithara.FlushHub

/-! Checkpoints and failed flushes: what ties a source's mark, its lock and its last file to the
hub's list and to the pass under way, and the promise it gives. -/
namespace DurableCheckpoint

open FlushHub TransitionSystem

variable {ι σ : Type*} [DecidableEq ι]

/-- A mutation is under way whose end is still to mark or to write the source. -/
def Busy (src : Source σ) : Prop :=
  0 < src.unmarked ∨ 0 < src.waiting ∨ src.writing.holder = some false

/-- A snapshot just read may be overtaken. -/
def Changing (eager : Bool) (src : Source σ) : Prop :=
  0 < src.unmarked ∨ 0 < src.waiting ∨ eager = false ∧ src.dirty = true

/-- A pass may skip the source: nothing was written, or what was is current, and listed unless
it is durable. -/
def Settled (src : Source σ) : Prop :=
  src.Checkpointed ∨ src.file = some (src.current, false) ∧ src.nonDurable = true

/-- A source and where the hub's pass is with it. -/
structure Fits (eager : Bool) (src : Source σ) (at_ : Option (Bool × Stage)) : Prop where
  mutators : eager = false → src.waiting = 0 ∧ src.writing.holder ≠ some false
  hub : src.writing.holder = some true → ∃ durable, at_ = some (durable, .flushing)
  taken : ∀ hub v, src.writing = .taken hub v → v = src.current ∨ Changing eager src
  written : ∀ hub, src.writing = .written hub → src.owes = false ∧
    ∃ v durable, src.file = some (v, durable) ∧ (v = src.current ∨ Changing eager src) ∧
      (hub = true → at_ = some (durable, .flushing))
  settled : at_ = none → src.dirty = true ∨ Busy src ∨ Settled src
  recorded : ∀ durable, at_ = some (durable, .recording true) →
    src.dirty = true ∨ Busy src ∨
      ∃ forced, src.file = some (src.current, forced) ∧ (durable = true → forced = true)
  owes : src.owes = true → src.dirty = true ∨
    ∃ durable, at_ = some (durable, .flushing) ∨ at_ = some (durable, .recording false)

/-- A source that a checkpoint's pass found idle and no mutation has touched since. -/
structure Calm (src : Source σ) (at_ : Option (Bool × Stage)) (visited failed : Prop) : Prop where
  idle : src.unmarked = 0 ∧ src.waiting = 0 ∧ src.writing.holder ≠ some false
  flushing : at_ = some (true, .flushing) → src.dirty = false ∧
    (∀ hub v, src.writing = .taken hub v → v = src.current) ∧
      ∀ hub, src.writing = .written hub → src.file = some (src.current, true)
  recorded : at_ = some (true, .recording true) → src.file = some (src.current, true)
  visited : visited → failed ∨ src.Checkpointed

variable {eager : Bool} {src : Source σ} {at_ : Option (Bool × Stage)}

theorem fits_hydrate (value : σ) : Fits eager (.hydrate value) none where
  mutators _ := ⟨rfl, by rintro ⟨⟩⟩
  hub := by rintro ⟨⟩
  taken := by rintro hub v ⟨⟩
  written := by rintro hub ⟨⟩
  settled _ := .inr (.inr (.inl (.inr ⟨rfl, rfl⟩)))
  recorded := by rintro durable ⟨⟩
  owes := by rintro ⟨⟩

theorem fits_mutate (h : Fits eager src at_) (value : σ) : Fits eager (src.mutate value) at_ where
  mutators := h.mutators
  hub := h.hub
  taken _ _ _ := .inr (.inl (Nat.succ_pos _))
  written hub hwritten := by
    obtain ⟨howes, v, durable, hfile, _, hat⟩ := h.written hub hwritten
    exact ⟨howes, v, durable, hfile, .inr (.inl (Nat.succ_pos _)), hat⟩
  settled _ := .inr (.inl (.inl (Nat.succ_pos _)))
  recorded _ _ := .inr (.inl (.inl (Nat.succ_pos _)))
  owes := h.owes

theorem changing_mark (src : Source σ) : Changing eager (src.mark eager) := by
  cases eager with
  | true => exact .inr (.inl (Nat.succ_pos _))
  | false => exact .inr (.inr ⟨rfl, rfl⟩)

theorem fits_mark (h : Fits eager src at_) : Fits eager (src.mark eager) at_ where
  mutators heager := by
    subst heager
    exact h.mutators rfl
  hub := h.hub
  taken _ _ _ := .inr (changing_mark src)
  written hub hwritten := by
    obtain ⟨howes, v, durable, hfile, _, hat⟩ := h.written hub hwritten
    exact ⟨howes, v, durable, hfile, .inr (changing_mark src), hat⟩
  settled _ := .inl rfl
  recorded _ _ := .inl rfl
  owes _ := .inl rfl

theorem fits_signal (h : Fits eager src at_) : Fits eager src.signal at_ :=
  ⟨h.mutators, h.hub, h.taken, h.written, h.settled, h.recorded, h.owes⟩

theorem fits_take (h : Fits eager src at_) (hwait : 0 < src.waiting) :
    Fits eager (src.take false) at_ where
  mutators heager := absurd (h.mutators heager).1 (Nat.ne_of_gt hwait)
  hub := by rintro ⟨⟩
  taken hub v htaken := by
    cases htaken
    exact .inl rfl
  written := by rintro hub ⟨⟩
  settled _ := .inr (.inl (.inr (.inr rfl)))
  recorded _ _ := .inr (.inl (.inr (.inr rfl)))
  owes := h.owes

theorem write_eq {durable ok hub : Bool} {v : σ} (htaken : src.writing = .taken hub v) :
    src.write durable ok = if ok then
      { src with file := some (v, durable), writing := .written hub, owes := false }
    else { src with writing := .free, owes := true } := by
  rw [Source.write, htaken]

theorem fits_written {v : σ} (h : Fits eager src at_) (htaken : src.writing = .taken false v) :
    Fits eager (src.write false true) at_ := by
  rw [write_eq htaken, if_pos rfl]
  exact
    { mutators := fun heager => absurd (by rw [htaken]; rfl) (h.mutators heager).2
      hub := by rintro ⟨⟩
      taken := by rintro hub v ⟨⟩
      written := fun hub hwritten => by
        cases hwritten
        exact ⟨rfl, v, false, rfl, h.taken false v htaken, by rintro ⟨⟩⟩
      settled := fun _ => .inr (.inl (.inr (.inr rfl)))
      recorded := fun _ _ => .inr (.inl (.inr (.inr rfl)))
      owes := by rintro ⟨⟩ }

theorem fits_writeFailed {v : σ} (h : Fits eager src at_) (htaken : src.writing = .taken false v)
    (hmarked : src.dirty = true ∨
      ∃ durable, at_ = some (durable, .flushing) ∨ at_ = some (durable, .recording false)) :
    Fits eager (src.write false false) at_ := by
  rw [write_eq htaken, if_neg Bool.false_ne_true]
  refine ⟨fun heager => absurd (by rw [htaken]; rfl) (h.mutators heager).2, by rintro ⟨⟩,
    by rintro hub v ⟨⟩, by rintro hub ⟨⟩, fun hnone => .inl ?_, fun durable hat => .inl ?_,
    fun _ => hmarked⟩
  · rcases hmarked with hdirty | ⟨durable, hat | hat⟩
    · exact hdirty
    · rw [hnone] at hat
      cases hat
    · rw [hnone] at hat
      cases hat
  · rcases hmarked with hdirty | ⟨durable', hat' | hat'⟩
    · exact hdirty
    · rw [hat] at hat'
      cases hat'
    · rw [hat] at hat'
      cases hat'

theorem fits_clear (h : Fits eager src at_) (hwritten : src.writing = .written false)
    (hnone : at_ = none → src.nonDurable = true)
    (hrecording : at_ ≠ some (true, .recording true)) : Fits eager (src.clear eager) at_ := by
  obtain ⟨howes, v, durable, hfile, hcurrent, _⟩ := h.written false hwritten
  have heager : eager = true := by
    cases eager with
    | true => rfl
    | false => exact absurd (by rw [hwritten]; rfl) (h.mutators rfl).2
  subst heager
  have hleft : Busy (src.clear true) ∨ (src.clear true).file = some (src.current, durable) := by
    rcases hcurrent with rfl | hmark | hwait | ⟨⟨⟩, _⟩
    · exact .inr hfile
    · exact .inl (.inl hmark)
    · exact .inl (.inr (.inl hwait))
  refine ⟨by rintro ⟨⟩, by rintro ⟨⟩, by rintro hub v ⟨⟩, by rintro hub ⟨⟩, fun hat => .inr ?_,
    fun forced hat => .inr ?_, fun howes' => ?_⟩
  · refine hleft.imp_right fun hfile => ?_
    cases durable with
    | true => exact .inl (.inl hfile)
    | false => exact .inr ⟨hfile, hnone hat⟩
  · refine hleft.imp_right fun hfile => ⟨durable, hfile, fun hforced => ?_⟩
    subst hforced
    exact absurd hat hrecording
  · exact absurd (howes.symm.trans howes') Bool.false_ne_true

theorem fits_visit (h : Fits eager src none) (durable : Bool) :
    Fits eager src.swap (some (durable, .flushing)) := by
  have hmutator {hub : Bool} (hholder : src.writing.holder = some hub) :
      eager = true ∧ hub = false := by
    cases hub with
    | true =>
      obtain ⟨_, hat⟩ := h.hub hholder
      cases hat
    | false =>
      cases eager with
      | true => exact ⟨rfl, rfl⟩
      | false => exact absurd hholder (h.mutators rfl).2
  have hkeep (heager : eager = true) (hchanging : Changing eager src) :
      Changing eager src.swap := by
    subst heager
    rcases hchanging with hmark | hwait | ⟨⟨⟩, _⟩
    · exact .inl hmark
    · exact .inr (.inl hwait)
  refine ⟨h.mutators, fun _ => ⟨durable, rfl⟩, fun hub v htaken => ?_, fun hub hwritten => ?_,
    by rintro ⟨⟩, by rintro d ⟨⟩, fun _ => .inr ⟨durable, .inl rfl⟩⟩
  · have hown := hmutator (congrArg Writing.holder htaken)
    exact (h.taken hub v htaken).imp_right (hkeep hown.1)
  · have hown := hmutator (congrArg Writing.holder hwritten)
    obtain ⟨howes, v, forced, hfile, hcurrent, _⟩ := h.written hub hwritten
    refine ⟨howes, v, forced, hfile, hcurrent.imp_right (hkeep hown.1), fun hhub => ?_⟩
    exact absurd (hown.2.symm.trans hhub) Bool.false_ne_true

theorem fits_hubTake {durable : Bool} (h : Fits eager src (some (durable, .flushing))) :
    Fits eager (src.take true) (some (durable, .flushing)) where
  mutators heager := ⟨(h.mutators heager).1, by rintro ⟨⟩⟩
  hub _ := ⟨durable, rfl⟩
  taken hub v htaken := by
    cases htaken
    exact .inl rfl
  written := by rintro hub ⟨⟩
  settled := by rintro ⟨⟩
  recorded := by rintro d ⟨⟩
  owes _ := .inr ⟨durable, .inl rfl⟩

theorem fits_hubWrite {durable : Bool} {v : σ} (ok : Bool)
    (h : Fits eager src (some (durable, .flushing))) (htaken : src.writing = .taken true v) :
    Fits eager (src.write durable ok)
      (some (durable, if ok then .flushing else .recording false)) := by
  have hidle (heager : eager = false) : src.waiting = 0 := (h.mutators heager).1
  rw [write_eq htaken]
  cases ok with
  | true =>
    refine ⟨fun heager => ⟨hidle heager, by rintro ⟨⟩⟩, fun _ => ⟨durable, rfl⟩,
      by rintro hub v ⟨⟩, fun hub hwritten => ?_, by rintro ⟨⟩, by rintro d ⟨⟩, by rintro ⟨⟩⟩
    exact ⟨rfl, v, durable, rfl, h.taken true v htaken, fun _ => rfl⟩
  | false =>
    exact ⟨fun heager => ⟨hidle heager, by rintro ⟨⟩⟩, by rintro ⟨⟩, by rintro hub v ⟨⟩,
      by rintro hub ⟨⟩, by rintro ⟨⟩, by rintro d ⟨⟩, fun _ => .inr ⟨durable, .inr rfl⟩⟩

theorem fits_hubClear {durable : Bool} (h : Fits eager src (some (durable, .flushing)))
    (hwritten : src.writing = .written true) :
    Fits eager (src.clear eager) (some (durable, .recording true)) := by
  obtain ⟨howes, v, forced, hfile, hcurrent, hat⟩ := h.written true hwritten
  cases hat rfl
  refine ⟨fun heager => ⟨(h.mutators heager).1, by rintro ⟨⟩⟩, by rintro ⟨⟩, by rintro hub v ⟨⟩,
    by rintro hub ⟨⟩, by rintro ⟨⟩, fun durable' hat' => ?_, fun howes' => ?_⟩
  · cases hat'
    rcases hcurrent with rfl | hmark | hwait | ⟨heager, hdirty⟩
    · exact .inr (.inr ⟨durable, hfile, id⟩)
    · exact .inr (.inl (.inl hmark))
    · exact .inr (.inl (.inr (.inl hwait)))
    · subst heager
      exact .inl hdirty
  · exact absurd (howes.symm.trans howes') Bool.false_ne_true

theorem fits_record {durable ok : Bool} (h : Fits eager src (some (durable, .recording ok))) :
    Fits eager (src.record durable ok) none := by
  have hmutator : src.writing.holder ≠ some true := by
    intro hholder
    obtain ⟨_, hat⟩ := h.hub hholder
    cases hat
  cases ok with
  | true =>
    refine ⟨h.mutators, fun hholder => absurd hholder hmutator, h.taken, fun hub hwritten => ?_,
      fun _ => ?_, by rintro d ⟨⟩, fun howes => ?_⟩
    · obtain ⟨howes, v, forced, hfile, hcurrent, hat⟩ := h.written hub hwritten
      exact ⟨howes, v, forced, hfile, hcurrent, fun hhub => absurd (hat hhub) (by rintro ⟨⟩)⟩
    · rcases h.recorded durable rfl with hdirty | hbusy | ⟨forced, hfile, hforced⟩
      · exact .inl hdirty
      · exact .inr (.inl hbusy)
      · refine .inr (.inr ?_)
        cases forced with
        | true => exact .inl (.inl hfile)
        | false =>
          refine .inr ⟨hfile, ?_⟩
          cases durable with
          | true => exact absurd (hforced rfl) Bool.false_ne_true
          | false => rfl
    · rcases h.owes howes with hdirty | ⟨d, hat | hat⟩
      · exact .inl hdirty
      · cases hat
      · cases hat
  | false =>
    have hkeep (hchanging : Changing eager src) : Changing eager (src.record durable false) := by
      rcases hchanging with hmark | hwait | ⟨heager, _⟩
      · exact .inl hmark
      · exact .inr (.inl hwait)
      · exact .inr (.inr ⟨heager, rfl⟩)
    refine ⟨h.mutators, fun hholder => absurd hholder hmutator,
      fun hub v htaken => (h.taken hub v htaken).imp_right hkeep, fun hub hwritten => ?_,
      fun _ => .inl rfl, by rintro d ⟨⟩, fun _ => .inl rfl⟩
    obtain ⟨howes, v, forced, hfile, hcurrent, hat⟩ := h.written hub hwritten
    exact ⟨howes, v, forced, hfile, hcurrent.imp_right hkeep,
      fun hhub => absurd (hat hhub) (by rintro ⟨⟩)⟩

theorem calm_signal {visited failed : Prop} (h : Calm src at_ visited failed) :
    Calm src.signal at_ visited failed :=
  ⟨h.idle, h.flushing, h.recorded, h.visited⟩

theorem calm_skip {visited failed : Prop} (h : Calm src none visited failed)
    (hfits : Fits eager src none) (hclean : src.needsFlush true = false) :
    Calm src.swap none True failed := by
  obtain ⟨hdirty, hlisted⟩ := Bool.or_eq_false_iff.mp hclean
  refine ⟨h.idle, by rintro ⟨⟩, by rintro ⟨⟩, fun _ => .inr ?_⟩
  rcases hfits.settled rfl with hmarked | hbusy | hdone | ⟨_, hlisted'⟩
  · exact absurd hmarked (by rw [hdirty]; exact Bool.false_ne_true)
  · rcases hbusy with hpos | hpos | hholder
    · exact absurd h.idle.1 (Nat.ne_of_gt hpos)
    · exact absurd h.idle.2.1 (Nat.ne_of_gt hpos)
    · exact absurd hholder h.idle.2.2
  · exact hdone
  · exact absurd (hlisted.symm.trans hlisted') Bool.false_ne_true

theorem calm_visit {visited failed : Prop} (h : Calm src none visited failed)
    (hfits : Fits eager src none) : Calm src.swap (some (true, .flushing)) visited failed := by
  have hfree : src.writing.holder = none := by
    cases hholder : src.writing.holder with
    | none => rfl
    | some hub =>
      cases hub with
      | true =>
        obtain ⟨_, hat⟩ := hfits.hub hholder
        cases hat
      | false => exact absurd hholder h.idle.2.2
  refine ⟨h.idle, fun _ => ⟨rfl, fun hub v htaken => ?_, fun hub hwritten => ?_⟩, by rintro ⟨⟩,
    h.visited⟩
  · exact absurd ((congrArg Writing.holder htaken).symm.trans hfree) (by rintro ⟨⟩)
  · exact absurd ((congrArg Writing.holder hwritten).symm.trans hfree) (by rintro ⟨⟩)

theorem calm_hubTake {visited failed : Prop} (h : Calm src at_ visited failed)
    (hat : at_ = some (true, .flushing)) : Calm (src.take true) at_ visited failed := by
  subst hat
  refine ⟨⟨h.idle.1, h.idle.2.1, by rintro ⟨⟩⟩, fun _ => ⟨(h.flushing rfl).1, fun hub v htaken => ?_,
    by rintro hub ⟨⟩⟩, by rintro ⟨⟩, h.visited⟩
  cases htaken
  rfl

theorem calm_hubWrite {visited failed : Prop} {v : σ} (ok : Bool)
    (h : Calm src (some (true, .flushing)) visited failed) (htaken : src.writing = .taken true v) :
    Calm (src.write true ok) (some (true, if ok then .flushing else .recording false))
      visited failed := by
  obtain ⟨hdirty, hcurrent, _⟩ := h.flushing rfl
  cases hcurrent true v htaken
  rw [write_eq htaken]
  cases ok with
  | true =>
    exact ⟨⟨h.idle.1, h.idle.2.1, by rintro ⟨⟩⟩,
      fun _ => ⟨hdirty, by rintro hub v ⟨⟩, fun _ _ => rfl⟩, by rintro ⟨⟩, fun _ => .inr (.inl rfl)⟩
  | false =>
    exact ⟨⟨h.idle.1, h.idle.2.1, by rintro ⟨⟩⟩, by rintro ⟨⟩, by rintro ⟨⟩, h.visited⟩

theorem calm_hubClear {visited failed : Prop} (h : Calm src (some (true, .flushing)) visited failed)
    (hwritten : src.writing = .written true) :
    Calm (src.clear eager) (some (true, .recording true)) visited failed :=
  ⟨⟨h.idle.1, h.idle.2.1, by rintro ⟨⟩⟩, by rintro ⟨⟩,
    fun _ => (h.flushing rfl).2.2 true hwritten, h.visited⟩

theorem calm_record {visited failed failed' : Prop} {ok : Bool}
    (h : Calm src (some (true, .recording ok)) visited failed) (hfailed : ok = false → failed') :
    Calm (src.record true ok) none True failed' := by
  cases ok with
  | true =>
    exact ⟨h.idle, by rintro ⟨⟩, by rintro ⟨⟩, fun _ => .inr (.inl (h.recorded rfl))⟩
  | false => exact ⟨h.idle, by rintro ⟨⟩, by rintro ⟨⟩, fun _ => .inl (hfailed rfl)⟩

structure Sound (eager : ι → Bool) (s : State ι σ) : Prop where
  fits : ∀ i, Fits (eager i) (s.source i) (s.stageAt i)
  calm : ∀ pass, s.pass = some pass → pass.durable = true → ∀ i, (s.source i).calm = true →
    Calm (s.source i) (s.stageAt i) (i ∈ pass.done) (pass.failed = true)
  listed : ∀ i, (s.source i).nonDurable = true → i ∈ s.sources
  covers : ∀ pass, s.pass = some pass → ∀ i ∈ pass.alive,
    i ∈ pass.todo ∨ i ∈ pass.done ∨ ∃ stage, pass.stage = some (i, stage)
  todo : ∀ pass, s.pass = some pass → ∀ i ∈ pass.todo, i ∈ s.sources
  stage : ∀ pass, s.pass = some pass → ∀ i stage, pass.stage = some (i, stage) → i ∈ s.sources

variable {eager : ι → Bool} {s : State ι σ} {i : ι} {pass : Pass ι} {stage : Stage}

theorem stageAt_self (hpass : s.pass = some pass) (hstage : pass.stage = some (i, stage)) :
    s.stageAt i = some (pass.durable, stage) := by
  rw [State.stageAt, hpass, Option.bind_some, hstage, Option.bind_some, if_pos rfl]

theorem stageAt_other (hpass : s.pass = some pass)
    (hstage : ∀ j stage, pass.stage = some (j, stage) → j ≠ i) : s.stageAt i = none := by
  rw [State.stageAt, hpass, Option.bind_some]
  cases hat : pass.stage with
  | none => rfl
  | some at_ => rw [Option.bind_some, if_neg (hstage _ _ hat)]

theorem stageAt_idle (hpass : s.pass = none) : s.stageAt i = none := by
  rw [State.stageAt, hpass]
  rfl

/-- A mutator's step touches one source, and no place of the pass. -/
theorem edit_sound {f : Source σ → Source σ} (h : Sound eager s)
    (hfits : Fits (eager i) (f (s.source i)) (s.stageAt i))
    (hlisted : (f (s.source i)).nonDurable = (s.source i).nonDurable)
    (hcalm : (f (s.source i)).calm = true → (s.source i).calm = true)
    (hkeep : ∀ pass, s.pass = some pass → pass.durable = true → (f (s.source i)).calm = true →
      ∀ visited failed, Calm (s.source i) (s.stageAt i) visited failed →
        Calm (f (s.source i)) (s.stageAt i) visited failed) :
    Sound eager (s.edit i f) := by
  refine ⟨fun j => ?_, fun pass hpass hdurable j hj => ?_, fun j hj => ?_, h.covers, h.todo, h.stage⟩
  · by_cases hij : j = i
    · subst hij
      simp only [State.edit, Function.update_self]
      exact hfits
    · simp only [State.edit, Function.update_of_ne hij]
      exact h.fits j
  · by_cases hij : j = i
    · subst hij
      simp only [State.edit, Function.update_self] at hj ⊢
      exact hkeep pass hpass hdurable hj _ _ (h.calm pass hpass hdurable j (hcalm hj))
    · simp only [State.edit, Function.update_of_ne hij] at hj ⊢
      exact h.calm pass hpass hdurable j hj
  · by_cases hij : j = i
    · subst hij
      simp only [State.edit, Function.update_self] at hj
      exact h.listed j (hlisted.symm.trans hj)
    · simp only [State.edit, Function.update_of_ne hij] at hj
      exact h.listed j hj

theorem pass_sound {f : Source σ → Source σ} {pass' : Pass ι} (h : Sound eager s)
    (hpass : s.pass = some pass) (hbefore : ∀ j stage, pass.stage = some (j, stage) → j = i)
    (hafter : ∀ j stage, pass'.stage = some (j, stage) → j = i)
    (hdurable : pass'.durable = pass.durable)
    (hdone : ∀ j ∈ pass'.done, j = i ∨ j ∈ pass.done)
    (hfailed : pass.failed = true → pass'.failed = true)
    (hcovers : ∀ j ∈ pass'.alive, j ∈ pass'.todo ∨ j ∈ pass'.done ∨
      ∃ stage, pass'.stage = some (j, stage))
    (hin : i ∈ s.sources) (htodo : ∀ j ∈ pass'.todo, j ∈ s.sources)
    (hfits : Fits (eager i) (f (s.source i)) ({ s.edit i f with pass := some pass' }.stageAt i))
    (hcalm : (f (s.source i)).calm = true → (s.source i).calm = true)
    (hkeep : pass.durable = true →
      Calm (s.source i) (s.stageAt i) (i ∈ pass.done) (pass.failed = true) →
        Calm (f (s.source i)) ({ s.edit i f with pass := some pass' }.stageAt i)
          (i ∈ pass'.done) (pass'.failed = true)) :
    Sound eager { s.edit i f with pass := some pass' } := by
  have helse {j : ι} (hij : j ≠ i) : s.stageAt j = none ∧
      { s.edit i f with pass := some pass' }.stageAt j = none :=
    ⟨stageAt_other hpass fun k stage hk => hbefore k stage hk ▸ Ne.symm hij,
      stageAt_other rfl fun k stage hk => hafter k stage hk ▸ Ne.symm hij⟩
  refine ⟨fun j => ?_, fun p hp hd j hj => ?_, fun j hj => ?_, fun p hp => ?_, fun p hp => ?_,
    fun p hp j stage hj => ?_⟩
  · by_cases hij : j = i
    · subst hij
      simp only [State.edit, Function.update_self] at hfits ⊢
      exact hfits
    · have hfits' := h.fits j
      rw [(helse hij).1] at hfits'
      rw [(helse hij).2]
      simp only [State.edit, Function.update_of_ne hij]
      exact hfits'
  · cases hp
    rw [hdurable] at hd
    by_cases hij : j = i
    · subst hij
      simp only [State.edit, Function.update_self] at hj hkeep ⊢
      exact hkeep hd (h.calm pass hpass hd j (hcalm hj))
    · simp only [State.edit, Function.update_of_ne hij] at hj ⊢
      have hold := h.calm pass hpass hd j hj
      rw [(helse hij).1] at hold
      have hnow := (helse hij).2
      simp only [State.edit] at hnow
      rw [hnow]
      exact ⟨hold.idle, hold.flushing, hold.recorded, fun hvisited =>
        (hold.visited ((hdone j hvisited).resolve_left hij)).imp_left hfailed⟩
  · by_cases hij : j = i
    · subst hij
      exact hin
    · simp only [State.edit, Function.update_of_ne hij] at hj
      exact h.listed j hj
  · cases hp
    exact hcovers
  · cases hp
    exact htodo
  · cases hp
    exact hafter j stage hj ▸ hin

theorem register_sound (h : Sound eager s) (i : ι) :
    Sound eager { s with sources := s.sources ++ [i] } where
  fits := h.fits
  calm := h.calm
  listed j hj := List.mem_append_left _ (h.listed j hj)
  covers := h.covers
  todo pass hpass j hj := List.mem_append_left _ (h.todo pass hpass j hj)
  stage pass hpass j stage hj := List.mem_append_left _ (h.stage pass hpass j stage hj)

theorem idle_spec {src : Source σ} (h : src.idle = true) :
    src.unmarked = 0 ∧ src.waiting = 0 ∧ src.writing.holder ≠ some false := by
  simp only [Source.idle, Bool.and_eq_true, decide_eq_true_eq] at h
  exact ⟨h.1.1.1, h.1.1.2, h.2⟩

theorem begin_sound (h : Sound eager s) (hpass : s.pass = none) (durable : Bool) :
    Sound eager (flushDirty s durable) := by
  have hnone (j : ι) : (flushDirty s durable).stageAt j = none :=
    stageAt_other rfl fun k stage hk => by cases hk
  refine ⟨fun j => ?_, fun pass hp hd j hj => ?_, fun j hj => ?_, fun pass hp j hj => ?_,
    fun pass hp j hj => ?_, fun pass hp j stage hj => ?_⟩
  · have hfits := h.fits j
    rw [stageAt_idle hpass] at hfits
    rw [hnone]
    refine ⟨hfits.mutators, hfits.hub, hfits.taken, hfits.written, fun _ => ?_, by rintro d ⟨⟩,
      hfits.owes⟩
    rcases hfits.settled rfl with hdirty | hbusy | hdone | ⟨hfile, hlisted⟩
    · exact .inl hdirty
    · exact .inr (.inl hbusy)
    · exact .inr (.inr (.inl hdone))
    · exact .inr (.inr (.inr ⟨hfile, Bool.and_eq_true_iff.mpr
        ⟨hlisted, decide_eq_true (h.listed j hlisted)⟩⟩))
  · cases hp
    rw [hnone]
    refine ⟨idle_spec (Bool.and_eq_true_iff.mp hj).2, by rintro ⟨⟩, by rintro ⟨⟩, fun hin => ?_⟩
    exact absurd hin List.not_mem_nil
  · exact h.listed j (Bool.and_eq_true_iff.mp hj).1
  · cases hp
    exact .inl hj
  · cases hp
    exact hj
  · cases hp
    cases hj

theorem visit_sound (h : Sound eager s) (hpass : s.pass = some pass) (hstage : pass.stage = none)
    (htodo : pass.todo ≠ []) : Sound eager (next eager s .visit) := by
  obtain ⟨i, rest, hrest⟩ := List.exists_cons_of_ne_nil htodo
  have hin : ∀ j ∈ i :: rest, j ∈ s.sources := hrest ▸ h.todo pass hpass
  have hat : s.stageAt i = none := stageAt_other hpass fun j stage hj => by
    rw [hstage] at hj
    cases hj
  have hfits := h.fits i
  rw [hat] at hfits
  have hcovers : ∀ j ∈ pass.alive, j = i ∨ j ∈ rest ∨ j ∈ pass.done := by
    intro j hj
    rcases h.covers pass hpass j hj with htodo | hdone | ⟨stage, hstage'⟩
    · rw [hrest] at htodo
      exact (List.mem_cons.mp htodo).imp_right .inl
    · exact .inr (.inr hdone)
    · rw [hstage] at hstage'
      cases hstage'
  simp only [next, hpass, hrest]
  split
  · refine pass_sound h hpass (fun j stage hj => ?_) (fun j stage hj => ?_) rfl (fun j => .inr) id
      (fun j hj => ?_) (hin i List.mem_cons_self) (fun j hj => hin j (List.mem_cons_of_mem i hj))
      ?_ id fun hdurable hcalm => ?_
    · rw [hstage] at hj
      cases hj
    · cases hj
      rfl
    · rcases hcovers j hj with rfl | hrest | hdone
      · exact .inr (.inr ⟨_, rfl⟩)
      · exact .inl hrest
      · exact .inr (.inl hdone)
    · rw [stageAt_self rfl rfl]
      exact fits_visit hfits pass.durable
    · rw [hat] at hcalm
      rw [stageAt_self rfl rfl, hdurable]
      exact calm_visit hcalm hfits
  · rename_i hclean
    refine pass_sound h hpass (fun j stage hj => ?_) (fun j stage hj => ?_) rfl
      (fun j => List.mem_cons.mp) id (fun j hj => ?_) (hin i List.mem_cons_self)
      (fun j hj => hin j (List.mem_cons_of_mem i hj)) ?_ id fun hdurable hcalm => ?_
    · rw [hstage] at hj
      cases hj
    · rw [hstage] at hj
      cases hj
    · rcases hcovers j hj with rfl | hrest | hdone
      · exact .inr (.inl List.mem_cons_self)
      · exact .inl hrest
      · exact .inr (.inl (List.mem_cons_of_mem i hdone))
    all_goals
      have hat' : { s.edit i (·.swap) with
          pass := some { pass with todo := rest, done := i :: pass.done } }.stageAt i = none :=
        stageAt_other rfl fun j stage hj => by
          rw [hstage] at hj
          cases hj
      rw [hat']
    · have hclean' : (s.source i).dirty = false := (Bool.or_eq_false_iff.mp
        (Bool.eq_false_iff.mpr hclean)).1
      have hsame : (s.source i).swap = s.source i := by rw [Source.swap, ← hclean']
      rw [hsame]
      exact hfits
    · rw [hat] at hcalm
      rw [hdurable] at hclean
      have hskip := calm_skip hcalm hfits (Bool.eq_false_iff.mpr hclean)
      exact ⟨hskip.idle, hskip.flushing, hskip.recorded, fun _ => hskip.visited trivial⟩

omit [DecidableEq ι] in
theorem onStage_eq {f : Pass ι → ι → Stage → State ι σ} (hpass : s.pass = some pass)
    (hstage : pass.stage = some (i, stage)) : s.onStage f = f pass i stage := by
  rw [State.onStage, hpass]
  simp only [hstage, Option.elim_some]

theorem goOn_sound {f : Source σ → Source σ} {stage' : Stage} (h : Sound eager s)
    (hpass : s.pass = some pass) (hstage : pass.stage = some (i, stage))
    (hfits : Fits (eager i) (s.source i) (some (pass.durable, stage)) →
      Fits (eager i) (f (s.source i)) (some (pass.durable, stage')))
    (hcalm : (f (s.source i)).calm = true → (s.source i).calm = true)
    (hkeep : ∀ visited failed, Calm (s.source i) (some (pass.durable, stage)) visited failed →
      pass.durable = true → Calm (f (s.source i)) (some (pass.durable, stage')) visited failed) :
    Sound eager { s.edit i f with pass := some { pass with stage := some (i, stage') } } := by
  have hat := stageAt_self hpass hstage
  refine pass_sound h hpass (fun j st hj => ?_) (fun j st hj => ?_) rfl (fun j => .inr) id
    (fun j hj => ?_) (h.stage pass hpass i stage hstage) (h.todo pass hpass) ?_ hcalm
    fun hdurable hold => ?_
  · rw [hstage] at hj
    cases hj
    rfl
  · cases hj
    rfl
  · refine (h.covers pass hpass j hj).imp_right (Or.imp_right ?_)
    rintro ⟨st, hst⟩
    rw [hstage] at hst
    cases hst
    exact ⟨stage', rfl⟩
  · rw [stageAt_self rfl rfl]
    exact hfits (hat ▸ h.fits i)
  · rw [hat] at hold
    rw [stageAt_self rfl rfl]
    exact hkeep _ _ hold hdurable

theorem record_sound {ok : Bool} (h : Sound eager s) (hpass : s.pass = some pass)
    (hstage : pass.stage = some (i, .recording ok)) : Sound eager (next eager s .record) := by
  have hat := stageAt_self hpass hstage
  have hnow {p : Pass ι} (hp : p.stage = none) :
      { s.edit i (·.record pass.durable ok) with pass := some p }.stageAt i = none :=
    stageAt_other rfl fun j st hj => by
      rw [hp] at hj
      cases hj
  have hok : decide (Stage.recording ok = .recording true) = ok := by cases ok <;> rfl
  have hfits := h.fits i
  rw [hat] at hfits
  rw [next, onStage_eq hpass hstage]
  simp only [hok]
  refine pass_sound h hpass (fun j st hj => ?_) (fun j st hj => ?_) rfl
    (fun j => List.mem_cons.mp) (fun hfailed => ?_) (fun j hj => ?_)
    (h.stage pass hpass i _ hstage) (h.todo pass hpass) ?_ (fun hcalm => ?_)
    fun hdurable hold => ?_
  · rw [hstage] at hj
    cases hj
    rfl
  · cases hj
  · rw [hfailed]
    rfl
  · rcases h.covers pass hpass j hj with htodo | hdone | ⟨st, hst⟩
    · exact .inl htodo
    · exact .inr (.inl (List.mem_cons_of_mem i hdone))
    · rw [hstage] at hst
      cases hst
      exact .inr (.inl List.mem_cons_self)
  · rw [hnow rfl]
    exact fits_record hfits
  · rw [Source.record] at hcalm
    split at hcalm <;> exact hcalm
  · rw [hat, hdurable] at hold
    rw [hnow rfl, hdurable]
    have hrecord : Calm _ none True ((pass.failed || !ok) = true) :=
      calm_record hold fun hfail => by
        rw [hfail]
        exact Bool.or_true _
    exact ⟨hrecord.idle, hrecord.flushing, hrecord.recorded, fun _ => hrecord.visited trivial⟩

theorem finish_sound (h : Sound eager s) (hpass : s.pass = some pass) (hstage : pass.stage = none) :
    Sound eager (next eager s .finish) := by
  refine ⟨fun i => ?_, by rintro pass ⟨⟩, h.listed, by rintro pass ⟨⟩, by rintro pass ⟨⟩,
    by rintro pass ⟨⟩⟩
  have hat : s.stageAt i = none := stageAt_other hpass fun j stage hj => by
    rw [hstage] at hj
    cases hj
  rw [stageAt_idle rfl]
  exact hat ▸ h.fits i

theorem mutator_sound (h : Sound eager s) (hbusy : Busy (s.source i)) {f : Source σ → Source σ}
    (hfits : Fits (eager i) (f (s.source i)) (s.stageAt i))
    (hlisted : (f (s.source i)).nonDurable = (s.source i).nonDurable)
    (hcalm : (f (s.source i)).calm = (s.source i).calm) : Sound eager (s.edit i f) := by
  refine edit_sound h hfits hlisted (fun hc => hcalm ▸ hc) fun _ _ _ _ _ _ hidle => ?_
  rcases hbusy with hpos | hpos | hholder
  · exact absurd hidle.idle.1 (Nat.ne_of_gt hpos)
  · exact absurd hidle.idle.2.1 (Nat.ne_of_gt hpos)
  · exact absurd hholder hidle.idle.2.2

theorem write_sound {ok : Bool} {v : σ} (h : Sound eager s)
    (htaken : (s.source i).writing = .taken false v) (hcare : Careful s (.write i ok)) :
    Sound eager (s.edit i (·.write false ok)) := by
  have hbusy : Busy (s.source i) := .inr (.inr (congrArg Writing.holder htaken))
  have hwrite := (write_eq htaken : (s.source i).write false ok = _)
  apply mutator_sound h hbusy
  · cases ok with
    | true => exact fits_written (h.fits i) htaken
    | false => exact fits_writeFailed (h.fits i) htaken hcare
  · rw [hwrite]
    split <;> rfl
  · rw [hwrite]
    split <;> rfl

theorem written_of {w : Writing σ} {hub : Bool} (h : w.isWritten hub = true) :
    w = .written hub := by
  cases w with
  | written hub' => rw [of_decide_eq_true h]
  | free => exact absurd h Bool.false_ne_true
  | taken hub' v => exact absurd h Bool.false_ne_true

theorem clear_sound (h : Sound eager s) (hwritten : (s.source i).writing = .written false)
    (htracked : Tracked s i) : Sound eager (s.edit i (·.clear (eager i))) := by
  have hbusy : Busy (s.source i) := .inr (.inr (congrArg Writing.holder hwritten))
  refine mutator_sound h hbusy (fits_clear (h.fits i) hwritten (fun hat => ?_) fun hat => ?_) rfl rfl
  · rw [Tracked, hat] at htracked
    exact htracked
  · rw [Tracked, hat] at htracked
    exact htracked ⟨rfl, rfl⟩

theorem hubTake_sound (h : Sound eager s) (hpass : s.pass = some pass)
    (hstage : pass.stage = some (i, .flushing)) : Sound eager (next eager s .hubTake) := by
  have hat := stageAt_self hpass hstage
  rw [next, onStage_eq hpass hstage]
  refine edit_sound h ?_ rfl id fun pass' hpass' hdurable _ _ _ hcalm => ?_
  · rw [hat]
    exact fits_hubTake (hat ▸ h.fits i)
  · cases hpass.symm.trans hpass'
    exact calm_hubTake hcalm (by rw [hat, hdurable])

theorem hubWrite_sound {ok : Bool} {v : σ} (h : Sound eager s) (hpass : s.pass = some pass)
    (hstage : pass.stage = some (i, .flushing)) (htaken : (s.source i).writing = .taken true v) :
    Sound eager (next eager s (.hubWrite ok)) := by
  rw [next, onStage_eq hpass hstage]
  refine goOn_sound h hpass hstage (fun hfits => fits_hubWrite ok hfits htaken)
    (fun hcalm => ?_) fun _ _ hcalm hdurable => ?_
  · rw [write_eq htaken] at hcalm
    split at hcalm <;> exact hcalm
  · rw [hdurable] at hcalm ⊢
    exact calm_hubWrite ok hcalm htaken

theorem hubClear_sound (h : Sound eager s) (hpass : s.pass = some pass)
    (hstage : pass.stage = some (i, .flushing)) (hwritten : (s.source i).writing = .written true) :
    Sound eager (next eager s .hubClear) := by
  rw [next, onStage_eq hpass hstage]
  refine goOn_sound h hpass hstage (fun hfits => fits_hubClear hfits hwritten) id
    fun _ _ hcalm hdurable => ?_
  rw [hdurable] at hcalm ⊢
  exact calm_hubClear hcalm hwritten

/-- A careful step keeps every source's mark, file and listing in step. -/
theorem sound_step (s : State ι σ) (a : FlushHub.Action ι σ) (h : Sound eager s)
    (henabled : (machine eager).Enabled s a) (hcare : Careful s a) :
    Sound eager ((machine eager).next s a) := by
  cases a with
  | register i => exact register_sound h i
  | mutate i value =>
    have hfits := fits_mutate (h.fits i) value
    exact edit_sound (f := (·.mutate value)) h hfits rfl
      (fun hcalm => absurd hcalm Bool.false_ne_true)
      fun _ _ _ hcalm => absurd hcalm Bool.false_ne_true
  | mark i =>
    exact mutator_sound (f := (·.mark (eager i))) h (.inl henabled) (fits_mark (h.fits i)) rfl rfl
  | signal i =>
    have hsignalled : Sound eager (s.edit i (·.signal)) :=
      edit_sound h (fits_signal (h.fits i)) rfl id fun _ _ _ _ _ _ => calm_signal
    exact ⟨hsignalled.fits, hsignalled.calm, hsignalled.listed, hsignalled.covers,
      hsignalled.todo, hsignalled.stage⟩
  | take i =>
    obtain ⟨_, hwait⟩ := henabled
    exact mutator_sound (f := (·.take false)) h (.inr (.inl hwait)) (fits_take (h.fits i) hwait)
      rfl rfl
  | write i ok =>
    obtain ⟨v, htaken⟩ := henabled
    exact write_sound h htaken hcare
  | clear i => exact clear_sound h (written_of henabled) hcare
  | cancel => exact ⟨h.fits, h.calm, h.listed, h.covers, h.todo, h.stage⟩
  | wake last => exact ⟨h.fits, h.calm, h.listed, h.covers, h.todo, h.stage⟩
  | begin durable =>
    have hpending : Sound eager { s with pending := s.pending && !durable } :=
      ⟨h.fits, h.calm, h.listed, h.covers, h.todo, h.stage⟩
    exact begin_sound hpending henabled.1 durable
  | visit =>
    obtain ⟨pass, hpass, hstage, htodo⟩ := henabled
    exact visit_sound h hpass hstage htodo
  | hubTake =>
    obtain ⟨pass, hpass, ⟨i, _⟩, hstage, rfl, _⟩ := henabled
    exact hubTake_sound h hpass hstage
  | hubWrite ok =>
    obtain ⟨pass, hpass, ⟨i, _⟩, hstage, rfl, v, htaken⟩ := henabled
    exact hubWrite_sound h hpass hstage htaken
  | hubClear =>
    obtain ⟨pass, hpass, ⟨i, _⟩, hstage, rfl, hwritten⟩ := henabled
    exact hubClear_sound h hpass hstage (written_of hwritten)
  | record =>
    obtain ⟨pass, hpass, ⟨i, _⟩, hstage, ok, rfl⟩ := henabled
    exact record_sound h hpass hstage
  | finish =>
    obtain ⟨pass, hpass, hstage, _⟩ := henabled
    exact finish_sound h hpass hstage

theorem start_sound (eager : ι → Bool) (loaded : ι → σ) : Sound eager (start loaded) :=
  ⟨fun i => fits_hydrate (loaded i), by rintro pass ⟨⟩, by rintro i ⟨⟩, by rintro pass ⟨⟩,
    by rintro pass ⟨⟩, by rintro pass ⟨⟩⟩

theorem sound_promise (h : Sound eager s) : Promise eager s := by
  have hmarked (i : ι) (howes : (s.source i).owes = true) : Marked s i := (h.fits i).owes howes
  refine ⟨fun pass hpass hdurable htodo hstage hok i hi hcalm => ?_, hmarked,
    fun pass hpass hstage i rest htodo howes => ?_⟩
  · rcases h.covers pass hpass i hi with hleft | hdone | ⟨stage, hat⟩
    · rw [htodo] at hleft
      cases hleft
    · refine ((h.calm pass hpass hdurable i hcalm).visited hdone).resolve_left fun hfailed => ?_
      rw [hok] at hfailed
      cases hfailed
    · rw [hstage] at hat
      cases hat
  · have hat : s.stageAt i = none := stageAt_other hpass fun j stage hj => by
      rw [hstage] at hj
      cases hj
    have hdirty : (s.source i).dirty = true := by
      rcases hmarked i howes with hdirty | ⟨durable, hflushing | hfailed⟩
      · exact hdirty
      · rw [hat] at hflushing
        cases hflushing
      · rw [hat] at hfailed
        cases hfailed
    have hneeds : (s.source i).needsFlush pass.durable = true := by
      rw [Source.needsFlush, hdirty, Bool.true_or]
    rw [Option.mem_def] at hpass
    simp only [next, hpass, htodo, hneeds, if_true]
    rw [stageAt_self rfl rfl]

/-- In every run whose mutators flush only what the hub tracks, and fail only while their mark
stands, checkpoints and failed flushes keep their promise. -/
theorem careful_runs_checkpoint (eager : ι → Bool) (loaded : ι → σ)
    (as : List (FlushHub.Action ι σ)) (hvalid : (machine eager).ValidTrace (start loaded) as)
    (hcare : (machine eager).Along Careful (start loaded) as) :
    (machine eager).Throughout (Promise eager) (start loaded) as := by
  have hsound := throughout_of_along (fun s a => sound_step s a) (start_sound eager loaded)
    hvalid hcare
  exact throughout_imp (fun _ h => sound_promise h) hsound

/-- Pins at 0, availability at 1. -/
def pinsEager (i : ℕ) : Bool := i = 0

def hubFlush : List (FlushHub.Action ℕ ℕ) := [.visit, .hubTake, .hubWrite true, .hubClear, .record]

def eagerFlush (value : ℕ) : List (FlushHub.Action ℕ ℕ) :=
  [.mutate 0 value, .mark 0, .take 0, .write 0 true, .clear 0]

/-- A pin fails to flush and availability is signalled, so that the worker flushes both; a pin
the hub has listed by then flushes itself before the checkpoint. -/
def listedPin : List (FlushHub.Action ℕ ℕ) :=
  [.register 0, .register 1, .mutate 0 5, .mark 0, .take 0, .write 0 false, .mutate 1 7, .mark 1,
    .signal 1, .wake false, .begin false] ++ hubFlush ++ hubFlush ++ [.finish] ++ eagerFlush 6 ++
    [.begin true] ++ hubFlush ++ hubFlush ++ [.finish]

theorem listed_pin_checkpointed :
    (machine pinsEager).Throughout (Promise pinsEager) (start fun _ => 0) listedPin :=
  careful_runs_checkpoint pinsEager (fun _ => 0) listedPin (by decide) (by decide)

/-- A pin flushes itself, and the checkpoint that follows skips it. -/
def skippedPin : List (FlushHub.Action ℕ ℕ) := [.register 0] ++ eagerFlush 5 ++ [.begin true, .visit]

/-- A flush of the pins clears the mark of a second pin, whose own flush then fails. -/
def unmarkedPin : List (FlushHub.Action ℕ ℕ) :=
  [.register 0, .mutate 0 5, .mark 0, .take 0, .write 0 true, .mutate 0 6, .mark 0, .clear 0,
    .take 0, .write 0 false]

theorem careless_runs_skip :
    ((machine pinsEager).ValidTrace (start fun _ => 0) skippedPin ∧
      ¬ (machine pinsEager).Throughout (Promise pinsEager) (start fun _ => 0) skippedPin) ∧
    (machine pinsEager).ValidTrace (start fun _ => 0) unmarkedPin ∧
      ¬ (machine pinsEager).Throughout (Promise pinsEager) (start fun _ => 0) unmarkedPin := by
  refine ⟨⟨by decide, fun h => ?_⟩, by decide, fun h => ?_⟩
  · have hend := throughout_iff_visited.mp h _ (List.prefix_refl _)
    have hdone := hend.checkpointed _ rfl rfl rfl rfl rfl 0 (by decide) rfl
    rcases hdone with hfile | ⟨hfile, _⟩
    · cases hfile
    · cases hfile
  · have hend := throughout_iff_visited.mp h _ (List.prefix_refl _)
    rcases hend.marked 0 rfl with hdirty | ⟨durable, hat | hat⟩
    · cases hdirty
    · cases hat
    · cases hat

end DurableCheckpoint

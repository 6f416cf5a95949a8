import Kithara.BeatRuns
import Mathlib.Data.List.Forall2
import Mathlib.Data.List.TakeWhile

/-! After any pushes, flushes and releases, of which any may fail on the way, the runs of a beat
pass are in order, apart, inside what was taken and few enough. -/
namespace BeatRuns

open RangeRuns ByteReaders AnalysisBlobs

variable {S : Type} {R : Resampler S} {c : Config}

structure Ordered (c : Config) (held : Set ℕ) (runs : List (Run S)) : Prop where
  forward : ∀ r ∈ runs, r.start ≤ r.stop
  apart : runs.Pairwise fun r next => r.stop < next.start
  fits : ∀ r ∈ runs, r.stop < 2 ^ 64
  covered : ∀ r ∈ runs, ∀ x, r.start ≤ x → x < r.stop → x ∈ held
  few : runs.length ≤ c.maxRuns + 1

theorem Ordered.mono {held held' : Set ℕ} {runs : List (Run S)} (h : Ordered c held runs)
    (hsub : held ⊆ held') : Ordered c held' runs :=
  ⟨h.forward, h.apart, h.fits, fun r hr x hx hx' => hsub (h.covered r hr x hx hx'), h.few⟩

theorem Ordered.sublist {held : Set ℕ} {runs runs' : List (Run S)} (h : Ordered c held runs)
    (hsub : runs'.Sublist runs) : Ordered c held runs' where
  forward := fun r hr => h.forward r (hsub.subset hr)
  apart := h.apart.sublist hsub
  fits := fun r hr => h.fits r (hsub.subset hr)
  covered := fun r hr => h.covered r (hsub.subset hr)
  few := hsub.length_le.trans h.few

/-- A run that keeps its end and starts no earlier. -/
def Narrows (r r' : Run S) : Prop := r.start ≤ r'.start ∧ r'.start ≤ r'.stop ∧ r'.stop = r.stop

theorem Ordered.narrow {held : Set ℕ} {runs runs' : List (Run S)}
    (hnarrow : List.Forall₂ Narrows runs runs') (h : Ordered c held runs) :
    Ordered c held runs' := by
  have hfrom : ∀ r' ∈ runs', ∃ r ∈ runs, Narrows r r' := by
    clear h
    induction hnarrow with
    | nil => simp
    | cons hr _ ih =>
      intro r' hr'
      rcases List.mem_cons.mp hr' with rfl | hr'
      · exact ⟨_, List.mem_cons_self, hr⟩
      · obtain ⟨r, hmem, hn⟩ := ih r' hr'
        exact ⟨r, List.mem_cons_of_mem _ hmem, hn⟩
  refine ⟨?_, ?_, ?_, ?_, ?_⟩
  · intro r' hr'
    obtain ⟨r, -, hn⟩ := hfrom r' hr'
    exact hn.2.1
  · have hapart := h.apart
    clear h hfrom
    induction hnarrow with
    | nil => exact List.Pairwise.nil
    | @cons r r' rest rest' hr htail ih =>
      obtain ⟨hfirst, hrest⟩ := List.pairwise_cons.mp hapart
      refine List.pairwise_cons.mpr ⟨?_, ih hrest⟩
      intro next hnext
      have hlater : ∃ n ∈ rest, Narrows n next := by
        clear ih hrest hfirst hapart hr
        induction htail with
        | nil => cases hnext
        | cons hn _ ih =>
          rcases List.mem_cons.mp hnext with rfl | hnext
          · exact ⟨_, List.mem_cons_self, hn⟩
          · obtain ⟨n, hmem, hn⟩ := ih hnext
            exact ⟨n, List.mem_cons_of_mem _ hmem, hn⟩
      obtain ⟨n, hmem, hn⟩ := hlater
      have hlt := hfirst n hmem
      have hstop := hr.2.2
      have hstart := hn.1
      omega
  · intro r' hr'
    obtain ⟨r, hr, hn⟩ := hfrom r' hr'
    rw [hn.2.2]
    exact h.fits r hr
  · intro r' hr' x hx hx'
    obtain ⟨r, hr, hn⟩ := hfrom r' hr'
    rw [hn.2.2] at hx'
    exact h.covered r hr x (hn.1.trans hx) hx'
  · rw [← hnarrow.length_eq]
    exact h.few

theorem dropWhile_not {α : Type} {p : α → Bool} {xs : List α}
    (h : xs.Pairwise fun x y => p y = true → p x = true) : ∀ x ∈ xs.dropWhile p, p x = false := by
  induction xs with
  | nil => simp
  | cons y xs ih =>
    obtain ⟨hfirst, hrest⟩ := List.pairwise_cons.mp h
    cases hy : p y with
    | true =>
      rw [List.dropWhile_cons_of_pos hy]
      exact ih hrest
    | false =>
      rw [List.dropWhile_cons_of_neg (by simp [hy])]
      intro x hx
      rcases List.mem_cons.mp hx with rfl | hx
      · exact hy
      · by_contra hpx
        have := hfirst x hx (by simpa using hpx)
        rw [hy] at this
        exact Bool.false_ne_true this

/-- The runs before a block, those it touches, and those after it. -/
structure Parted (start stop : ℕ) (runs before absorbed after : List (Run S)) : Prop where
  whole : runs = before ++ absorbed ++ after
  before : ∀ r ∈ before, r.stop < start
  touched : ∀ r ∈ absorbed, start ≤ r.stop ∧ r.start ≤ stop
  after : ∀ r ∈ after, stop < r.start

theorem Ordered.parted {held : Set ℕ} {runs : List (Run S)} (h : Ordered c held runs)
    {start stop : ℕ} (hlt : start < stop) :
    ∃ before absorbed after, Parted start stop runs before absorbed after ∧
      partitionPoint (fun run => decide (run.stop < start)) runs = before.length ∧
      partitionPoint (fun run => decide (run.start ≤ stop)) runs =
        before.length + absorbed.length := by
  obtain ⟨p, hp⟩ : ∃ p : Run S → Bool, p = fun run => decide (run.stop < start) := ⟨_, rfl⟩
  obtain ⟨q, hq⟩ : ∃ q : Run S → Bool, q = fun run => decide (run.start ≤ stop) := ⟨_, rfl⟩
  have hp' : ∀ r, p r = true ↔ r.stop < start := by simp [hp]
  have hq' : ∀ r, q r = true ↔ r.start ≤ stop := by simp [hq]
  have hstops : runs.Pairwise fun r next => p next = true → p r = true := by
    refine h.apart.imp_of_mem ?_
    intro r next _ hnext hrn
    have := h.forward next hnext
    rw [hp', hp']
    omega
  have hstarts : runs.Pairwise fun r next => q next = true → q r = true := by
    refine h.apart.imp_of_mem ?_
    intro r next hr _ hrn
    have := h.forward r hr
    rw [hq', hq']
    omega
  have hwhole : runs = runs.takeWhile p ++
      ((runs.dropWhile p).takeWhile q ++ (runs.dropWhile p).dropWhile q) := by
    rw [List.takeWhile_append_dropWhile, List.takeWhile_append_dropWhile]
  have hbefore : ∀ r ∈ runs.takeWhile p, r.stop < start := by
    intro r hr
    exact (hp' r).mp (List.mem_takeWhile_imp hr)
  have hbeforeStarts : ∀ r ∈ runs.takeWhile p, q r = true := by
    intro r hr
    have hlt' := hbefore r hr
    have hfw := h.forward r ((List.takeWhile_sublist p).subset hr)
    exact (hq' r).mpr (by omega)
  have hrest : (runs.dropWhile p).Pairwise fun r next => q next = true → q r = true :=
    hstarts.sublist (List.dropWhile_sublist p)
  rw [← hp, ← hq]
  refine ⟨runs.takeWhile p, (runs.dropWhile p).takeWhile q, (runs.dropWhile p).dropWhile q,
    ⟨?_, hbefore, ?_, ?_⟩, rfl, ?_⟩
  · rw [List.append_assoc]
    exact hwhole
  · intro r hr
    have hno := dropWhile_not hstops r ((List.takeWhile_sublist q).subset hr)
    rw [Bool.eq_false_iff, ne_eq, hp', not_lt] at hno
    exact ⟨hno, (hq' r).mp (List.mem_takeWhile_imp hr)⟩
  · intro r hr
    have hno := dropWhile_not hrest r hr
    rwa [Bool.eq_false_iff, ne_eq, hq', not_le] at hno
  · rw [← List.length_append, partitionPoint]
    conv_lhs => rw [hwhole]
    rw [List.takeWhile_append_of_pos hbeforeStarts, List.takeWhile_append_dropWhile]

theorem Parted.rest {start stop : ℕ} {runs before absorbed after : List (Run S)}
    (h : Parted start stop runs before absorbed after) : (before ++ after).Sublist runs := by
  rw [h.whole, List.append_assoc]
  exact (List.Sublist.refl before).append (List.sublist_append_right absorbed after)

theorem Parted.length {start stop : ℕ} {runs before absorbed after : List (Run S)}
    (h : Parted start stop runs before absorbed after) :
    runs.length = before.length + absorbed.length + after.length := by
  rw [h.whole, List.length_append, List.length_append]

theorem Parted.absorbed_subset {start stop : ℕ} {runs before absorbed after : List (Run S)}
    (h : Parted start stop runs before absorbed after) : ∀ r ∈ absorbed, r ∈ runs := by
  intro r hr
  rw [h.whole]
  exact List.mem_append_left _ (List.mem_append_right _ hr)

theorem Parted.touches {s : Runs S} {start stop : ℕ} {before absorbed after : List (Run S)}
    (h : Parted start stop s.runs before absorbed after) (hmeets : s.meets start stop = true) :
    absorbed ≠ [] := by
  rintro rfl
  obtain ⟨r, hr, hmeet⟩ := List.any_eq_true.mp hmeets
  rw [Bool.and_eq_true, decide_eq_true_eq, decide_eq_true_eq] at hmeet
  rw [h.whole, List.append_nil] at hr
  rcases List.mem_append.mp hr with hr | hr
  · have := h.before r hr
    omega
  · have := h.after r hr
    omega

namespace Runs

theorem bridge_cursor {s : Runs S} {mono : List Sample} {offset stop : ℕ} {m m' : Merging S}
    (h : s.bridge R mono offset stop m = some m') : m'.cursor = max m.cursor stop := by
  rw [bridge] at h
  split at h
  · obtain ⟨piece, -, rfl⟩ := Option.map_eq_some_iff.mp h
    dsimp only
    omega
  · cases h
    omega

theorem mergeRun_cursor (s : Runs S) (base : ℕ) (m : Merging S) (run : Run S) :
    (s.mergeRun R base m run).cursor = max m.cursor run.stop := by
  rw [mergeRun]
  dsimp only
  split
  · dsimp only
    omega
  · split
    · dsimp only
      omega
    · dsimp only
      omega

/-- Up to the cursor the block and the runs hold every frame. -/
structure Reached (held : Set ℕ) (base : ℕ) (m : Merging S) : Prop where
  forward : base ≤ m.cursor
  covered : ∀ x, base ≤ x → x < m.cursor → x ∈ held

theorem mergeRuns_reached {s : Runs S} {mono : List Sample} {start stop base top : ℕ}
    {held : Set ℕ} {absorbed : List (Run S)} {m m' : Merging S}
    (hblock : ∀ x, start ≤ x → x < stop → x ∈ held)
    (hcovered : ∀ r ∈ absorbed, ∀ x, r.start ≤ x → x < r.stop → x ∈ held)
    (htouched : ∀ r ∈ absorbed, start ≤ r.stop ∧ r.start ≤ stop)
    (hforward : ∀ r ∈ absorbed, r.start ≤ r.stop) (htop : ∀ r ∈ absorbed, r.stop < top)
    (hm : Reached held base m) (hbelow : m.cursor < top)
    (hfirst : start ≤ m.cursor ∨ (absorbed.head?.map Run.start) = some m.cursor)
    (h : s.mergeRuns R mono start base absorbed m = some m') :
    Reached held base m' ∧ m'.cursor < top ∧ start ≤ m'.cursor := by
  induction absorbed generalizing m with
  | nil =>
    cases h
    exact ⟨hm, hbelow, hfirst.resolve_right (by simp)⟩
  | cons run rest ih =>
    obtain ⟨hstop, hstart⟩ := htouched run List.mem_cons_self
    have hrun := hforward run List.mem_cons_self
    have hend := htop run List.mem_cons_self
    have hheld := hcovered run List.mem_cons_self
    rw [mergeRuns] at h
    split at h
    · cases h
    · next m₁ hbridge =>
      have hcursor₁ := bridge_cursor hbridge
      have hcursor := mergeRun_cursor (R := R) s base m₁ run
      have hbase := hm.forward
      refine ih (fun r hr => hcovered r (List.mem_cons_of_mem _ hr))
        (fun r hr => htouched r (List.mem_cons_of_mem _ hr))
        (fun r hr => hforward r (List.mem_cons_of_mem _ hr))
        (fun r hr => htop r (List.mem_cons_of_mem _ hr)) ⟨?_, ?_⟩ ?_ (Or.inl ?_) h
      · omega
      · intro x hx hx'
        by_cases hbefore : x < m.cursor
        · exact hm.covered x hx hbefore
        · by_cases hgap : x < run.start
          · -- a gap lies past the start of the block: the first run has none before it
            refine hblock x ?_ (by omega)
            rcases hfirst with hfirst | hfirst
            · omega
            · rw [List.head?_cons, Option.map_some, Option.some_inj] at hfirst
              omega
          · exact hheld x (by omega) (by omega)
      · omega
      · omega

theorem mergeRuns_cursor {s : Runs S} {mono : List Sample} {start base : ℕ}
    {absorbed : List (Run S)} {m m' : Merging S}
    (h : s.mergeRuns R mono start base absorbed m = some m') :
    m.cursor ≤ m'.cursor ∧ ∀ r ∈ absorbed, r.stop ≤ m'.cursor := by
  induction absorbed generalizing m with
  | nil =>
    cases h
    exact ⟨le_rfl, by simp⟩
  | cons run rest ih =>
    rw [mergeRuns] at h
    split at h
    · cases h
    · next m₁ hbridge =>
      obtain ⟨hle, hstops⟩ := ih h
      have hcursor₁ := bridge_cursor hbridge
      have hcursor := mergeRun_cursor (R := R) s base m₁ run
      exact ⟨by omega, List.forall_mem_cons.mpr ⟨by omega, hstops⟩⟩

/-- The run made of a block and the runs it touches starts no later than the first of these and
ends no earlier than any. -/
theorem merge_contains {s : Runs S} {mono : List Sample} {start stop : ℕ} {first merged : Run S}
    {rest : List (Run S)} (h : s.merge R (first :: rest) mono start stop = some merged) :
    merged.start ≤ first.start ∧ first.stop ≤ merged.stop := by
  rw [merge] at h
  split at h
  · cases h
  · next m hm =>
    have hstop := (mergeRuns_cursor hm).2 first List.mem_cons_self
    split at h
    · cases h
    · next m' hbridge =>
      have hcursor := bridge_cursor hbridge
      cases h
      refine ⟨min_le_left _ _, ?_⟩
      dsimp only
      omega

theorem merge_spans {s : Runs S} {mono : List Sample} {start stop top : ℕ} {held : Set ℕ}
    {absorbed : List (Run S)} {merged : Run S} (hlt : start < stop)
    (hblock : ∀ x, start ≤ x → x < stop → x ∈ held)
    (hcovered : ∀ r ∈ absorbed, ∀ x, r.start ≤ x → x < r.stop → x ∈ held)
    (htouched : ∀ r ∈ absorbed, start ≤ r.stop ∧ r.start ≤ stop)
    (hforward : ∀ r ∈ absorbed, r.start ≤ r.stop) (htop : ∀ r ∈ absorbed, r.stop < top)
    (hstop : stop < top) (h : s.merge R absorbed mono start stop = some merged) :
    merged.start ≤ merged.stop ∧ merged.stop < top ∧
      (∀ x, merged.start ≤ x → x < merged.stop → x ∈ held) ∧
      (merged.start = start ∨ ∃ r ∈ absorbed, merged.start = r.start) := by
  rw [merge] at h
  generalize hbase : ((absorbed.head?.map fun run => min run.start start).getD start) = base at h
  have hfrom : base ≤ start ∧ (base = start ∨ ∃ r ∈ absorbed, base = r.start ∧
      absorbed.head?.map Run.start = some base) := by
    cases absorbed with
    | nil => exact ⟨hbase.symm.le, Or.inl hbase.symm⟩
    | cons run rest =>
      have hmin : min run.start start = base := hbase
      refine ⟨by omega, ?_⟩
      by_cases hle : run.start ≤ start
      · have hrun : base = run.start := by omega
        exact Or.inr ⟨run, List.mem_cons_self, hrun, by rw [hrun]; rfl⟩
      · exact Or.inl (by omega)
  split at h
  · cases h
  · next m hm =>
    have hfirst : start ≤ base ∨ absorbed.head?.map Run.start = some base :=
      hfrom.2.imp (fun heq => heq.symm.le) fun ⟨_, _, _, hhead⟩ => hhead
    have hstart : Reached held base (⟨[], base, none⟩ : Merging S) :=
      ⟨le_rfl, fun x hx hx' => absurd hx' (not_lt.mpr hx)⟩
    have hbase' : base < top := by omega
    obtain ⟨hreached, hbelow, hpast⟩ := mergeRuns_reached hblock hcovered htouched hforward htop
      hstart hbase' hfirst hm
    split at h
    · cases h
    · next m' hbridge =>
      have hcursor := bridge_cursor hbridge
      have hforward' := hreached.forward
      cases h
      refine ⟨by dsimp only; omega, by dsimp only; omega, ?_, ?_⟩
      · intro x hx hx'
        dsimp only at hx hx'
        by_cases hbefore : x < m.cursor
        · exact hreached.covered x hx hbefore
        · exact hblock x (by omega) (by omega)
      · exact hfrom.2.imp id fun ⟨r, hr, heq, _⟩ => ⟨r, hr, heq⟩

def withPiece (held : Set ℕ) (start stop : ℕ) : Set ℕ :=
  {x | (start ≤ x ∧ x < stop) ∨ x ∈ held}

theorem absorb_keeps (s : Runs S) (mono : List Sample) (start stop : ℕ) (fails : Bool) :
    (s.absorb R mono start stop fails).1.config = s.config ∧
      (s.absorb R mono start stop fails).1.taken = s.taken := by
  rw [absorb]
  dsimp only
  split
  · split
    · exact ⟨rfl, rfl⟩
    · exact ⟨rfl, rfl⟩
  · split
    · exact ⟨rfl, rfl⟩
    · split
      · exact ⟨rfl, rfl⟩
      · exact ⟨rfl, rfl⟩

theorem open_spans (s : Runs S) (mono : List Sample) (start stop : ℕ) :
    (s.open R mono start stop).start = start ∧ (s.open R mono start stop).stop = stop := by
  rw [Runs.open]
  split
  · exact ⟨rfl, rfl⟩
  · exact ⟨rfl, rfl⟩

theorem between_ordered {held : Set ℕ} {runs before absorbed after : List (Run S)} {r : Run S}
    {start stop : ℕ} (h : Ordered c held runs)
    (hparts : Parted start stop runs before absorbed after)
    (hforward : r.start ≤ r.stop) (hfits : r.stop < 2 ^ 64)
    (hcovered : ∀ x, r.start ≤ x → x < r.stop → x ∈ held)
    (hbefore : ∀ b ∈ before, b.stop < r.start) (hafter : ∀ a ∈ after, r.stop < a.start)
    (hfew : before.length + 1 + after.length ≤ c.maxRuns + 1) :
    Ordered c held (before ++ r :: after) := by
  have hsub : (before ++ after).Sublist runs := by
    rw [hparts.whole, List.append_assoc]
    exact (List.Sublist.refl before).append (List.sublist_append_right absorbed after)
  have hrest := h.sublist hsub
  obtain ⟨hbs, has, hba⟩ := List.pairwise_append.mp hrest.apart
  have hmem : ∀ x ∈ before ++ r :: after, x = r ∨ x ∈ before ++ after := by
    intro x hx
    rcases List.mem_append.mp hx with hx | hx
    · exact Or.inr (List.mem_append_left _ hx)
    · rcases List.mem_cons.mp hx with rfl | hx
      · exact Or.inl rfl
      · exact Or.inr (List.mem_append_right _ hx)
  refine ⟨?_, ?_, ?_, ?_, ?_⟩
  · intro x hx
    rcases hmem x hx with rfl | hx
    · exact hforward
    · exact hrest.forward x hx
  · refine List.pairwise_append.mpr ⟨hbs, List.pairwise_cons.mpr ⟨hafter, has⟩, ?_⟩
    intro b hb x hx
    rcases List.mem_cons.mp hx with rfl | hx
    · exact hbefore b hb
    · exact hba b hb x hx
  · intro x hx
    rcases hmem x hx with rfl | hx
    · exact hfits
    · exact hrest.fits x hx
  · intro x hx
    rcases hmem x hx with rfl | hx
    · exact hcovered
    · exact hrest.covered x hx
  · rw [List.length_append, List.length_cons]
    omega

/-- What absorbing comes to: a block that touches no run opens one, and one that does takes the
place of the runs it touches, with what they held. -/
theorem absorb_cases {s : Runs S} {held : Set ℕ} (h : Ordered s.config held s.runs)
    (mono : List Sample) {start stop : ℕ} (hlt : start < stop) (fails : Bool) :
    ∃ before absorbed after, Parted start stop s.runs before absorbed after ∧
      ((absorbed = [] ∧ s.absorb R mono start stop fails =
          if fails then (s, false)
          else ({ s with runs := before ++ s.open R mono start stop :: after }, true)) ∨
        (absorbed ≠ [] ∧ s.absorb R mono start stop fails =
          if fails then ({ s with runs := before ++ after }, false)
          else match s.merge R absorbed mono start stop with
            | none => ({ s with runs := before ++ after }, true)
            | some merged => ({ s with runs := before ++ merged :: after }, true))) := by
  obtain ⟨before, absorbed, after, hparts, hfirst, hlast⟩ := h.parted hlt
  refine ⟨before, absorbed, after, hparts, ?_⟩
  have htake : s.runs.take before.length = before := by
    rw [hparts.whole, List.append_assoc, List.take_left]
  have hdrop : s.runs.drop before.length = absorbed ++ after := by
    rw [hparts.whole, List.append_assoc, List.drop_left]
  have hafter : s.runs.drop (before.length + absorbed.length) = after := by
    rw [← List.drop_drop, hdrop, List.drop_left]
  have hsub : before.length + absorbed.length - before.length = absorbed.length := by omega
  simp only [absorb]
  rw [hfirst, hlast]
  cases absorbed with
  | nil =>
    refine Or.inl ⟨rfl, ?_⟩
    rw [if_pos (by rw [List.length_nil, Nat.add_zero]), htake, hdrop, List.nil_append]
  | cons run rest =>
    refine Or.inr ⟨List.cons_ne_nil _ _, ?_⟩
    rewrite [if_neg (by rw [List.length_cons]; omega), htake, hdrop, hafter, hsub, List.take_left]
    rfl

theorem absorb_ordered {s : Runs S} {held : Set ℕ} (h : Ordered s.config held s.runs)
    {mono : List Sample} {start stop : ℕ} (hlt : start < stop) (hfits : stop < 2 ^ 64)
    (hroom : s.runs.length ≤ s.config.maxRuns ∨ s.meets start stop = true) (fails : Bool) :
    Ordered s.config (withPiece held start stop) (s.absorb R mono start stop fails).1.runs := by
  have hwider : Ordered s.config (withPiece held start stop) s.runs := h.mono fun x hx => Or.inr hx
  have hblock : ∀ x, start ≤ x → x < stop → x ∈ withPiece held start stop :=
    fun x hx hx' => Or.inl ⟨hx, hx'⟩
  obtain ⟨before, absorbed, after, hparts, ⟨hnone, habsorb⟩ | ⟨hsome, habsorb⟩⟩ :=
    absorb_cases (R := R) h mono hlt fails
  · rw [habsorb]
    split
    · exact hwider
    · obtain ⟨hstart, hstop⟩ := open_spans (R := R) s mono start stop
      refine between_ordered hwider hparts ?_ ?_ ?_ ?_ ?_ ?_
      · omega
      · omega
      · rw [hstart, hstop]
        exact hblock
      · rw [hstart]
        exact hparts.before
      · rw [hstop]
        exact hparts.after
      · rcases hroom with hroom | hmeets
        · have := hparts.length
          rw [hnone, List.length_nil] at this
          omega
        · exact absurd hnone (hparts.touches hmeets)
  · have hpairs := h.apart
    rw [hparts.whole] at hpairs
    obtain ⟨hfront, -, hcross⟩ := List.pairwise_append.mp hpairs
    have hrest := hwider.sublist hparts.rest
    rw [habsorb]
    split
    · exact hrest
    · split
      · exact hrest
      · next merged hmerge =>
        have hspans := fun top (htop : ∀ r ∈ absorbed, r.stop < top) (hstop : stop < top) =>
          merge_spans (R := R) hlt hblock
            (fun r hr => hwider.covered r (hparts.absorbed_subset r hr)) hparts.touched
            (fun r hr => h.forward r (hparts.absorbed_subset r hr)) htop hstop hmerge
        obtain ⟨hforward, hbelow, hcovered, hfrom⟩ :=
          hspans (2 ^ 64) (fun r hr => h.fits r (hparts.absorbed_subset r hr)) hfits
        refine between_ordered hwider hparts hforward hbelow hcovered ?_ ?_ ?_
        · intro b hb
          rcases hfrom with heq | ⟨r, hr, heq⟩
          · rw [heq]
            exact hparts.before b hb
          · rw [heq]
            exact (List.pairwise_append.mp hfront).2.2 b hb r hr
        · intro a ha
          exact (hspans a.start (fun r hr => hcross r (List.mem_append_right _ hr) a ha)
            (hparts.after a ha)).2.1
        · have hfew := h.few
          have hlength := hparts.length
          have hpos := List.length_pos_of_ne_nil hsome
          omega

/-- What fails to be absorbed takes nothing, though the runs it touched may be gone. -/
theorem absorb_failed {s : Runs S} {held : Set ℕ} (h : Ordered s.config held s.runs)
    {mono : List Sample} {start stop : ℕ} {fails : Bool} (hlt : start < stop)
    (hfailed : (s.absorb R mono start stop fails).2 = false) :
    (s.absorb R mono start stop fails).1.runs.Sublist s.runs := by
  obtain ⟨before, absorbed, after, hparts, ⟨_, habsorb⟩ | ⟨_, habsorb⟩⟩ :=
    absorb_cases (R := R) h mono hlt fails
  · rw [habsorb] at hfailed ⊢
    split
    · exact List.Sublist.refl _
    · next hfine =>
      rw [if_neg hfine] at hfailed
      cases hfailed
  · rw [habsorb] at hfailed ⊢
    split
    · exact hparts.rest
    · next hfine =>
      rw [if_neg hfine] at hfailed
      split at hfailed
      · cases hfailed
      · cases hfailed

/-- The order of a pass's runs, over what it says it has taken. -/
def Sound (s : Runs S) : Prop := Ordered s.config {x | x ∈ s.taken.set} s.runs

theorem intake_anywhere {s : Runs S} (h : s.intake = .anywhere) :
    s.runs.length < s.config.maxRuns := by
  unfold intake at h
  split at h
  · cases h
  · split at h
    · cases h
    · omega

theorem admits_room {s : Runs S} {start stop : ℕ} {opens : Opens}
    (h : s.admits start stop opens = true) :
    s.runs.length ≤ s.config.maxRuns ∨ s.meets start stop = true := by
  unfold admits at h
  split at h
  · cases h
  · rcases Bool.or_eq_true_iff.mp h with hmeets | hreach
    · exact Or.inr hmeets
    · exact Or.inl (of_decide_eq_true (Bool.and_eq_true_iff.mp hreach).1)
  · next hintake => exact Or.inl (intake_anywhere hintake).le
  · exact Or.inr h
  · exact Or.inr h

theorem absorb_sound {s s' : Runs S} (h : s.Sound) {block : List Sample} {start stop : ℕ}
    {opens : Opens} {fails ok : Bool} (hlt : start < stop) (hfits : stop < 2 ^ 64)
    (hadmits : s.admits start stop opens = true)
    (habsorb : s.absorb R block start stop fails = (s', ok)) :
    ({ s' with taken := s'.taken.insert start stop hfits } : Runs S).Sound ∧
      s'.config = s.config ∧ s'.taken = s.taken := by
  have hkeeps := absorb_keeps (R := R) s block start stop fails
  have hordered : Ordered s.config (withPiece _ start stop)
      (s.absorb R block start stop fails).1.runs :=
    absorb_ordered h hlt hfits (admits_room hadmits) fails
  rw [habsorb] at hkeeps hordered
  refine ⟨?_, hkeeps⟩
  have hheld : withPiece {x | x ∈ s.taken.set} start stop ⊆
      {x | x ∈ (s'.taken.insert start stop hfits).set} := by
    intro x hx
    rw [hkeeps.2]
    exact RangeSet.mem_insert.mpr hx
  have hmono := hordered.mono hheld
  rwa [← hkeeps.1] at hmono

theorem pushPieces_sound {mono : List Sample} {offset stop : ℕ} {hstop : stop < 2 ^ 64}
    {opens : Opens} {s : Runs S} {cursor : ℕ} {took : Bool} {fails : Option ℕ} (h : s.Sound) :
    (pushPieces R mono offset stop hstop opens s cursor took fails).1.Sound ∧
      (pushPieces R mono offset stop hstop opens s cursor took fails).1.config = s.config := by
  fun_induction pushPieces R mono offset stop hstop opens s cursor took fails with
  | case1 | case2 | case5 => exact ⟨h, rfl⟩
  | case3 s cursor took fails a b hpiece hadmits block _ s' hb habsorb ih =>
    obtain ⟨hnext, hsame, _⟩ := absorb_sound h (missing_spec hpiece).2.1 hb hadmits habsorb
    obtain ⟨hsound, hconfig⟩ := ih hnext
    exact ⟨hsound, hconfig.trans hsame⟩
  | case4 s cursor took fails a b hpiece hadmits block _ s' ok habsorb hok =>
    have hspec := missing_spec hpiece
    have hkeeps := absorb_keeps (R := R) s block a b (fails == some 0)
    have hfailed : (s.absorb R block a b (fails == some 0)).2 = false →
        (s.absorb R block a b (fails == some 0)).1.runs.Sublist s.runs :=
      absorb_failed h hspec.2.1
    rw [habsorb] at hkeeps hfailed
    have hsound := h.sublist (hfailed (by simpa using hok))
    dsimp only at hkeeps hsound ⊢
    refine ⟨?_, hkeeps.1⟩
    rw [Sound, hkeeps.1, hkeeps.2]
    exact hsound

theorem push_sound {s : Runs S} (h : s.Sound) (mono : List Sample) (offset : ℕ) (opens : Opens)
    (fails : Option ℕ) : (s.push R mono offset opens fails).1.Sound ∧
      (s.push R mono offset opens fails).1.config = s.config := pushPieces_sound h

theorem flushRuns_narrow (s : Runs S) {runs : List (Run S)}
    (hforward : ∀ r ∈ runs, r.start ≤ r.stop) (failing : Option (ℕ × List Sample)) :
    List.Forall₂ Narrows runs (s.flushRuns R failing runs) := by
  induction runs generalizing failing with
  | nil =>
    cases failing with
    | none => exact List.Forall₂.nil
    | some p => exact List.Forall₂.nil
  | cons r rest ih =>
    have hr := hforward r List.mem_cons_self
    have hrest := ih fun r hr => hforward r (List.mem_cons_of_mem _ hr)
    have hsame : List.Forall₂ Narrows rest rest := by
      refine List.forall₂_same.mpr fun r hr => ?_
      exact ⟨le_rfl, hforward r (List.mem_cons_of_mem _ hr), rfl⟩
    obtain _ | ⟨_ | n, samples⟩ := failing
    · exact List.Forall₂.cons ⟨le_rfl, hr, rfl⟩ (hrest _)
    · exact List.Forall₂.cons ⟨le_rfl, hr, rfl⟩ hsame
    · exact List.Forall₂.cons ⟨le_rfl, hr, rfl⟩ (hrest _)

theorem releaseRun_narrow (c : Config) (opensAt : ℕ → ℕ) {r : Run S} (hr : r.start ≤ r.stop) :
    Narrows r (releaseRun c opensAt r) := by
  rw [releaseRun]
  split
  · exact ⟨le_rfl, hr, rfl⟩
  · refine ⟨?_, ?_, rfl⟩
    · exact le_min (le_max_right _ _) hr
    · exact min_le_right _ _

theorem release_sound {s : Runs S} (h : s.Sound) (opensAt : ℕ → ℕ) : (s.release opensAt).Sound := by
  refine h.narrow (List.forall₂_map_right_iff.mpr (List.forall₂_same.mpr fun r hr => ?_))
  exact releaseRun_narrow s.config opensAt (h.forward r hr)

theorem step_sound {s : Runs S} (h : s.Sound) (op : Op) :
    (step R s op).Sound ∧ (step R s op).config = s.config := by
  cases op with
  | push mono offset opens fails => exact push_sound h mono offset opens fails
  | flush failing => exact ⟨h.narrow (flushRuns_narrow s h.forward failing), rfl⟩
  | release opensAt => exact ⟨release_sound h opensAt, rfl⟩

theorem new_sound (c : Config) : (new c : Runs S).Sound where
  forward := by simp [new]
  apart := List.Pairwise.nil
  fits := by simp [new]
  covered := by simp [new]
  few := Nat.zero_le _

end Runs

/-- The runs of a pass stay in order, and its configuration is the one it was given. -/
theorem run_sound (R : Resampler S) (c : Config) (ops : List Op) :
    (run R c ops).Sound ∧ (run R c ops).config = (Runs.new c : Runs S).config := by
  have hrun : ∀ s : Runs S, s.Sound →
      (ops.foldl (step R) s).Sound ∧ (ops.foldl (step R) s).config = s.config := by
    induction ops with
    | nil => exact fun s h => ⟨h, rfl⟩
    | cons op ops ih =>
      intro s h
      obtain ⟨hsound, hconfig⟩ := Runs.step_sound (R := R) h op
      obtain ⟨hend, hsame⟩ := ih _ hsound
      exact ⟨hend, hsame.trans hconfig⟩
  exact hrun _ (Runs.new_sound c)

end BeatRuns

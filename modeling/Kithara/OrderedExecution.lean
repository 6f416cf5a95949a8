import Kithara.BasisReplay
import Mathlib.Data.List.Sort
import Mathlib.Data.List.Pairwise
import Mathlib.Data.List.Perm.Basic
import Mathlib.Order.Defs.LinearOrder
import Mathlib.Logic.Relation

/-! Changes sent one by one and judged in the order of their keys. A change that misses its basis
is answered at its turn, one that can never hold again may be answered earlier, and one that took
effect may be answered later. Nothing is sent before what already took effect. -/
namespace OrderedExecution

open BasisReplay

variable {ι σ κ : Type*}

structure Entry (ι σ κ : Type*) extends Change ι σ where
  key : κ

/-- What was sent and not judged, what took effect in order, and the answers in the order they
were given, true for a change that took effect. -/
structure Line (ι σ κ : Type*) where
  sent : List (Entry ι σ κ)
  waiting : List (Entry ι σ κ)
  shifted : List (Entry ι σ κ)
  answers : List (Entry ι σ κ × Bool)

def Line.empty : Line ι σ κ := ⟨[], [], [], []⟩

variable [DecidableEq ι] [LinearOrder σ] [LinearOrder κ]

def ledgerBefore (base : ι → σ) (l : Line ι σ κ) (key : κ) : ι → σ :=
  ((l.shifted.filter fun e => e.key < key).map Entry.toChange).foldl record base

def ledger (base : ι → σ) (l : Line ι σ κ) : ι → σ :=
  (l.shifted.map Entry.toChange).foldl record base

inductive Step (base : ι → σ) : Line ι σ κ → Line ι σ κ → Prop where
  | send (l) (e : Entry ι σ κ) : (∀ d ∈ l.sent, d.stamp < e.stamp ∧ d.key ≠ e.key) →
      Strict e.toChange → (∀ d ∈ l.shifted, d.key < e.key) →
      Step base l { l with sent := l.sent ++ [e], waiting := l.waiting ++ [e] }
  | miss (l) (e : Entry ι σ κ) (rest) : l.waiting.Perm (e :: rest) →
      (∀ d ∈ rest, e.key < d.key) → ¬ Current (ledger base l) e.toChange →
      Step base l { l with waiting := rest, answers := l.answers ++ [(e, false)] }
  | reject (l) (e : Entry ι σ κ) (rest) : l.waiting.Perm (e :: rest) →
      Outdated (ledger base l) e.toChange →
      Step base l { l with waiting := rest, answers := l.answers ++ [(e, false)] }
  | shift (l) (e : Entry ι σ κ) (rest) : l.waiting.Perm (e :: rest) →
      (∀ d ∈ rest, e.key < d.key) → Current (ledger base l) e.toChange →
      Step base l { l with waiting := rest, shifted := l.shifted ++ [e] }
  | answer (l) (e : Entry ι σ κ) : e ∈ l.shifted →
      Step base l { l with answers := l.answers ++ [(e, true)] }

/-- What may still take effect between what already did and the key. -/
def MayPrecede (l : Line ι σ κ) (e c : Entry ι σ κ) : Prop :=
  c.key < e.key ∧ Strict c.toChange ∧ (∀ d ∈ l.shifted, d.key < c.key) ∧
    (c ∈ l.waiting ∨ e.stamp < c.stamp)

/-- Whatever is sent and runs before its turn, the change is not current there. -/
def Dead (base : ι → σ) (l : Line ι σ κ) (e : Entry ι σ κ) : Prop :=
  ∀ cs : List (Entry ι σ κ), (∀ c ∈ cs, MayPrecede l e c) →
    ¬ Current (replay (ledgerBefore base l e.key) (cs.map Entry.toChange)) e.toChange

structure Invariant (base : ι → σ) (l : Line ι σ κ) : Prop where
  strict : ∀ e ∈ l.sent, Strict e.toChange
  stamps : l.sent.Pairwise fun d e => d.stamp < e.stamp
  keys : l.sent.Pairwise fun d e => d.key ≠ e.key
  waiting : ∀ e ∈ l.waiting, e ∈ l.sent
  once : l.waiting.Nodup
  shifted : ∀ e ∈ l.shifted, e ∈ l.sent
  accounted : ∀ e ∈ l.sent, e ∈ l.waiting ∨ e ∈ l.shifted ∨ (e, false) ∈ l.answers
  ahead : ∀ e ∈ l.waiting, ∀ d ∈ l.shifted, d.key < e.key
  order : l.shifted.Pairwise fun d e => d.key < e.key
  chain : Chained base (l.shifted.map Entry.toChange)
  applied : ∀ e, (e, true) ∈ l.answers → e ∈ l.shifted
  missed : ∀ e, (e, false) ∈ l.answers → e ∈ l.sent ∧ Dead base l e
  /-- A change that missed is answered before all that take effect after its turn. -/
  fifo : l.answers.Pairwise fun a b => a.2 = true → b.2 = false → a.1.key < b.1.key

theorem empty_invariant (base : ι → σ) : Invariant base (Line.empty : Line ι σ κ) := by
  constructor <;> simp [Line.empty, Chained]

theorem dead_mono {base : ι → σ} {l l' : Line ι σ κ} {e : Entry ι σ κ} (h : Dead base l e)
    (hs : l'.shifted = l.shifted)
    (hw : ∀ c ∈ l'.waiting, c ∈ l.waiting ∨ e.stamp < c.stamp) : Dead base l' e := by
  intro cs hcs
  have hledger : ledgerBefore base l' e.key = ledgerBefore base l e.key := by
    simp only [ledgerBefore, hs]
  rw [hledger]
  refine h cs fun c hc => ?_
  obtain ⟨hkey, hstrict, hahead, hfrom⟩ := hcs c hc
  refine ⟨hkey, hstrict, hs ▸ hahead, ?_⟩
  rcases hfrom with hfrom | hfrom
  · exact hw c hfrom
  · exact Or.inr hfrom

/-- Nothing takes effect behind the last that did, so a dead change stays dead. -/
theorem dead_shift {base : ι → σ} {l : Line ι σ κ} {e c : Entry ι σ κ} {rest : List (Entry ι σ κ)}
    (h : Dead base l e) (hperm : l.waiting.Perm (c :: rest)) (hstrict : Strict c.toChange)
    (hahead : ∀ d ∈ l.shifted, d.key < c.key) (hne : c.key ≠ e.key)
    (hcurrent : Current (ledger base l) c.toChange) :
    Dead base { l with waiting := rest, shifted := l.shifted ++ [c] } e := by
  intro cs hcs
  have hlater (d : Entry ι σ κ) (hd : d ∈ cs) : c.key < d.key :=
    (hcs d hd).2.2.1 c (List.mem_append_right l.shifted List.mem_cons_self)
  rcases lt_or_gt_of_ne hne with hlt | hgt
  · -- The shift came before its turn: it is one of what may run before it.
    have hall : ∀ d ∈ l.shifted, d.key < e.key := fun d hd => (hahead d hd).trans hlt
    have hfilter : l.shifted.filter (fun d => d.key < e.key) = l.shifted :=
      List.filter_eq_self.mpr fun d hd => decide_eq_true (hall d hd)
    have hbefore : ledgerBefore base l e.key = ledger base l := by
      simp only [ledgerBefore, ledger, hfilter]
    have hafter : ledgerBefore base { l with waiting := rest, shifted := l.shifted ++ [c] } e.key =
        judge (ledger base l) c.toChange := by
      rw [judge_of_current hcurrent]
      simp only [ledgerBefore, ledger, List.filter_append, hfilter, List.filter_cons, hlt,
        decide_true, if_true, List.filter_nil, List.map_append, List.map_cons, List.map_nil,
        List.foldl_concat]
    rw [hafter]
    have hdead := h (c :: cs) (by
      intro d hd
      rcases List.mem_cons.mp hd with rfl | hd
      · exact ⟨hlt, hstrict, hahead, Or.inl (hperm.mem_iff.mpr List.mem_cons_self)⟩
      · obtain ⟨hkey, hs, hbeyond, hfrom⟩ := hcs d hd
        refine ⟨hkey, hs, fun d' hd' => hbeyond d' (List.mem_append_left [c] hd'), ?_⟩
        exact hfrom.imp_left fun hm => hperm.mem_iff.mpr (List.mem_cons_of_mem c hm))
    rwa [hbefore] at hdead
  · -- The shift came past its turn: nothing can run before it any more.
    have hnil : cs = [] := by
      cases cs with
      | nil => rfl
      | cons d cs =>
        have hd := hlater d List.mem_cons_self
        exact absurd ((hgt.trans hd).trans (hcs d List.mem_cons_self).1) (lt_irrefl _)
    have hledger : ledgerBefore base { l with waiting := rest, shifted := l.shifted ++ [c] } e.key =
        ledgerBefore base l e.key := by
      simp only [ledgerBefore, List.filter_append, List.filter_cons, List.filter_nil,
        decide_eq_false (not_lt.mpr hgt.le), Bool.false_eq_true, if_false, List.append_nil]
    rw [hledger, hnil]
    exact h [] (fun d hd => absurd hd List.not_mem_nil)

omit [LinearOrder σ] in
theorem ledgerBefore_of_ahead {base : ι → σ} {l : Line ι σ κ} {key : κ}
    (h : ∀ d ∈ l.shifted, d.key < key) : ledgerBefore base l key = ledger base l := by
  have hfilter : l.shifted.filter (fun d => d.key < key) = l.shifted :=
    List.filter_eq_self.mpr fun d hd => decide_eq_true (h d hd)
  simp only [ledgerBefore, ledger, hfilter]

/-- A change that misses the ledger with nothing before it is dead: no later stamp is one it
was planned on. -/
theorem dead_of_first {base : ι → σ} {l : Line ι σ κ} {e : Entry ι σ κ}
    (hstrict : Strict e.toChange) (hahead : ∀ d ∈ l.shifted, d.key < e.key)
    (hfirst : ∀ d ∈ l.waiting, e.key < d.key) (hmiss : ¬ Current (ledger base l) e.toChange) :
    Dead base l e := by
  intro cs hcs hcurrent
  rw [ledgerBefore_of_ahead hahead] at hcurrent
  apply hmiss
  intro b hb
  have hlast := hcurrent b hb
  rcases replay_source (ledger base l) (cs.map Entry.toChange) b.1 with
    hsource | ⟨pre, c, post, hsplit, _, _, hstamp⟩
  · rw [← hsource]
    exact hlast
  · have hmem : c ∈ cs.map Entry.toChange := by simp [hsplit]
    obtain ⟨d, hd, rfl⟩ := List.mem_map.mp hmem
    obtain ⟨hkey, _, _, hfrom⟩ := hcs d hd
    rcases hfrom with hfrom | hfrom
    · exact absurd (hfirst d hfrom) (not_lt.mpr hkey.le)
    · have hlt : b.2 < d.stamp := (hstrict b hb).trans hfrom
      rw [← hlast, hstamp] at hlt
      exact absurd hlt (lt_irrefl _)

theorem dead_of_outdated {base : ι → σ} {l : Line ι σ κ} {e : Entry ι σ κ}
    (hahead : ∀ d ∈ l.shifted, d.key < e.key) (hout : Outdated (ledger base l) e.toChange) :
    Dead base l e := by
  intro cs hcs
  rw [ledgerBefore_of_ahead hahead]
  apply hout.not_current
  apply le_replay
  intro c hc
  obtain ⟨d, hd, rfl⟩ := List.mem_map.mp hc
  exact (hcs d hd).2.1.forward

theorem Dead.not_current {base : ι → σ} {l : Line ι σ κ} {e : Entry ι σ κ} (h : Dead base l e) :
    ¬ Current (ledgerBefore base l e.key) e.toChange :=
  h [] fun _ hc => absurd hc List.not_mem_nil

theorem missed_invariant {base : ι → σ} {l : Line ι σ κ} {e : Entry ι σ κ}
    {rest : List (Entry ι σ κ)} (h : Invariant base l) (hperm : l.waiting.Perm (e :: rest))
    (hdead : Dead base { l with waiting := rest, answers := l.answers ++ [(e, false)] } e) :
    Invariant base { l with waiting := rest, answers := l.answers ++ [(e, false)] } := by
  have he : e ∈ l.waiting := hperm.mem_iff.mpr List.mem_cons_self
  have hrest (d : Entry ι σ κ) (hd : d ∈ rest) : d ∈ l.waiting :=
    hperm.mem_iff.mpr (List.mem_cons_of_mem e hd)
  constructor
  · exact h.strict
  · exact h.stamps
  · exact h.keys
  · exact fun d hd => h.waiting d (hrest d hd)
  · exact (hperm.nodup_iff.mp h.once).of_cons
  · exact h.shifted
  · intro d hd
    rcases h.accounted d hd with hw | hs | hm
    · rcases List.mem_cons.mp (hperm.mem_iff.mp hw) with rfl | hw
      · exact Or.inr (Or.inr (List.mem_append_right l.answers List.mem_cons_self))
      · exact Or.inl hw
    · exact Or.inr (Or.inl hs)
    · exact Or.inr (Or.inr (List.mem_append_left _ hm))
  · exact fun d hd => h.ahead d (hrest d hd)
  · exact h.order
  · exact h.chain
  · intro d hd
    rcases List.mem_append.mp hd with hd | hd
    · exact h.applied d hd
    · simp at hd
  · intro d hd
    rcases List.mem_append.mp hd with hd | hd
    · obtain ⟨hsent, hdd⟩ := h.missed d hd
      exact ⟨hsent, dead_mono hdd rfl fun c hc => Or.inl (hrest c hc)⟩
    · obtain ⟨rfl, _⟩ := Prod.mk.inj (List.mem_singleton.mp hd)
      exact ⟨h.waiting d he, hdead⟩
  · apply List.pairwise_append.mpr
    refine ⟨h.fifo, List.pairwise_singleton _ _, ?_⟩
    rintro ⟨d, took⟩ hd b hb htook _
    rw [List.mem_singleton.mp hb]
    obtain rfl : took = true := htook
    exact h.ahead e he d (h.applied d hd)

theorem step_invariant {base : ι → σ} {l l' : Line ι σ κ} (h : Invariant base l)
    (st : Step base l l') : Invariant base l' := by
  cases st with
  | send e hfresh hstrict hahead =>
    have hnew : e ∉ l.sent := fun he => lt_irrefl _ (hfresh e he).1
    constructor
    · intro d hd
      rcases List.mem_append.mp hd with hd | hd
      · exact h.strict d hd
      · rw [List.mem_singleton.mp hd]
        exact hstrict
    · apply List.pairwise_append.mpr
      refine ⟨h.stamps, List.pairwise_singleton _ _, fun d hd b hb => ?_⟩
      rw [List.mem_singleton.mp hb]
      exact (hfresh d hd).1
    · apply List.pairwise_append.mpr
      refine ⟨h.keys, List.pairwise_singleton _ _, fun d hd b hb => ?_⟩
      rw [List.mem_singleton.mp hb]
      exact (hfresh d hd).2
    · intro d hd
      rcases List.mem_append.mp hd with hd | hd
      · exact List.mem_append_left [e] (h.waiting d hd)
      · exact List.mem_append_right l.sent hd
    · apply List.Nodup.append h.once (List.nodup_singleton e)
      intro d hd he
      rw [List.mem_singleton.mp he] at hd
      exact hnew (h.waiting e hd)
    · exact fun d hd => List.mem_append_left [e] (h.shifted d hd)
    · intro d hd
      rcases List.mem_append.mp hd with hd | hd
      · exact (h.accounted d hd).imp_left fun hw => List.mem_append_left [e] hw
      · exact Or.inl (List.mem_append_right l.waiting hd)
    · intro d hd b hb
      rcases List.mem_append.mp hd with hd | hd
      · exact h.ahead d hd b hb
      · rw [List.mem_singleton.mp hd]
        exact hahead b hb
    · exact h.order
    · exact h.chain
    · exact h.applied
    · intro d hd
      obtain ⟨hsent, hdead⟩ := h.missed d hd
      refine ⟨List.mem_append_left [e] hsent, dead_mono hdead rfl fun c hc => ?_⟩
      rcases List.mem_append.mp hc with hc | hc
      · exact Or.inl hc
      · rw [List.mem_singleton.mp hc]
        exact Or.inr (hfresh d hsent).1
    · exact h.fifo
  | miss e rest hperm hfirst hmiss =>
    have he : e ∈ l.waiting := hperm.mem_iff.mpr List.mem_cons_self
    exact missed_invariant h hperm
      (dead_of_first (h.strict e (h.waiting e he)) (h.ahead e he) hfirst hmiss)
  | reject e rest hperm hout =>
    have he : e ∈ l.waiting := hperm.mem_iff.mpr List.mem_cons_self
    exact missed_invariant h hperm (dead_of_outdated (h.ahead e he) hout)
  | shift e rest hperm hfirst hcurrent =>
    have he : e ∈ l.waiting := hperm.mem_iff.mpr List.mem_cons_self
    have hsent : e ∈ l.sent := h.waiting e he
    have hrest (d : Entry ι σ κ) (hd : d ∈ rest) : d ∈ l.waiting :=
      hperm.mem_iff.mpr (List.mem_cons_of_mem e hd)
    constructor
    · exact h.strict
    · exact h.stamps
    · exact h.keys
    · exact fun d hd => h.waiting d (hrest d hd)
    · exact (hperm.nodup_iff.mp h.once).of_cons
    · intro d hd
      rcases List.mem_append.mp hd with hd | hd
      · exact h.shifted d hd
      · rw [List.mem_singleton.mp hd]
        exact hsent
    · intro d hd
      rcases h.accounted d hd with hw | hs | hm
      · rcases List.mem_cons.mp (hperm.mem_iff.mp hw) with rfl | hw
        · exact Or.inr (Or.inl (List.mem_append_right l.shifted List.mem_cons_self))
        · exact Or.inl hw
      · exact Or.inr (Or.inl (List.mem_append_left [e] hs))
      · exact Or.inr (Or.inr hm)
    · intro d hd b hb
      rcases List.mem_append.mp hb with hb | hb
      · exact h.ahead d (hrest d hd) b hb
      · rw [List.mem_singleton.mp hb]
        exact hfirst d hd
    · apply List.pairwise_append.mpr
      refine ⟨h.order, List.pairwise_singleton _ _, fun d hd b hb => ?_⟩
      rw [List.mem_singleton.mp hb]
      exact h.ahead e he d hd
    · show Chained base ((l.shifted ++ [e]).map Entry.toChange)
      rw [List.map_append]
      exact chained_append.mpr ⟨h.chain, hcurrent, trivial⟩
    · exact fun d hd => List.mem_append_left [e] (h.applied d hd)
    · intro d hd
      obtain ⟨hdsent, hdead⟩ := h.missed d hd
      refine ⟨hdsent, dead_shift hdead hperm (h.strict e hsent) (h.ahead e he) ?_ hcurrent⟩
      intro hkey
      have hsame : d = e := by
        by_contra hne
        have : Std.Symm fun a b : Entry ι σ κ => a.key ≠ b.key := ⟨fun _ _ hab => hab.symm⟩
        exact List.Pairwise.forall h.keys hdsent hsent hne hkey.symm
      subst hsame
      apply hdead.not_current
      rw [ledgerBefore_of_ahead (h.ahead d he)]
      exact hcurrent
    · exact h.fifo
  | answer e he =>
    constructor
    · exact h.strict
    · exact h.stamps
    · exact h.keys
    · exact h.waiting
    · exact h.once
    · exact h.shifted
    · exact fun d hd => (h.accounted d hd).imp_right fun hm =>
        hm.imp_right fun hm => List.mem_append_left _ hm
    · exact h.ahead
    · exact h.order
    · exact h.chain
    · intro d hd
      rcases List.mem_append.mp hd with hd | hd
      · exact h.applied d hd
      · rw [(Prod.mk.inj (List.mem_singleton.mp hd)).1]
        exact he
    · intro d hd
      rcases List.mem_append.mp hd with hd | hd
      · obtain ⟨hsent, hdead⟩ := h.missed d hd
        exact ⟨hsent, dead_mono hdead rfl fun c hc => Or.inl hc⟩
      · simp at hd
    · apply List.pairwise_append.mpr
      refine ⟨h.fifo, List.pairwise_singleton _ _, fun a _ b hb _ hmiss => ?_⟩
      rw [List.mem_singleton.mp hb] at hmiss
      cases hmiss

abbrev Steps (base : ι → σ) : Line ι σ κ → Line ι σ κ → Prop := Relation.ReflTransGen (Step base)

theorem steps_invariant {base : ι → σ} {l l' : Line ι σ κ} (h : Invariant base l)
    (st : Steps base l l') : Invariant base l' := by
  induction st with
  | refl => exact h
  | tail _ st ih => exact step_invariant ih st

theorem miss_all {base : ι → σ} (es rest : List (Entry ι σ κ)) {l : Line ι σ κ}
    (hperm : l.waiting.Perm (es ++ rest)) (horder : es.Pairwise fun d e => d.key < e.key)
    (hfirst : ∀ e ∈ es, ∀ d ∈ rest, e.key < d.key)
    (hmiss : ∀ e ∈ es, ¬ Current (ledger base l) e.toChange) :
    ∃ l', Steps base l l' ∧ l'.sent = l.sent ∧ l'.waiting.Perm rest ∧ l'.shifted = l.shifted ∧
      l'.answers = l.answers ++ es.map fun e => (e, false) := by
  induction es generalizing l with
  | nil => exact ⟨l, .refl, rfl, hperm, rfl, by simp⟩
  | cons e es ih =>
    have hhead : ∀ d ∈ es ++ rest, e.key < d.key := by
      intro d hd
      rcases List.mem_append.mp hd with hd | hd
      · exact List.rel_of_pairwise_cons horder hd
      · exact hfirst e List.mem_cons_self d hd
    have hstep := Step.miss l e (es ++ rest) hperm hhead (hmiss e List.mem_cons_self)
    obtain ⟨l', hsteps, hsent, hwaiting, hshifted, hanswers⟩ := ih
      (l := { l with waiting := es ++ rest, answers := l.answers ++ [(e, false)] }) (List.Perm.refl _)
      horder.of_cons (fun d hd => hfirst d (List.mem_cons_of_mem e hd))
      (fun d hd => hmiss d (List.mem_cons_of_mem e hd))
    refine ⟨l', .head hstep hsteps, hsent, hwaiting, hshifted, ?_⟩
    rw [hanswers, List.append_assoc]
    rfl

theorem reject_all {base : ι → σ} (es rest : List (Entry ι σ κ)) {l : Line ι σ κ}
    (hperm : l.waiting.Perm (es ++ rest))
    (hout : ∀ e ∈ es, Outdated (ledger base l) e.toChange) :
    ∃ l', Steps base l l' ∧ l'.sent = l.sent ∧ l'.waiting.Perm rest ∧ l'.shifted = l.shifted ∧
      l'.answers = l.answers ++ es.map fun e => (e, false) := by
  induction es generalizing l with
  | nil => exact ⟨l, .refl, rfl, hperm, rfl, by simp⟩
  | cons e es ih =>
    have hstep := Step.reject l e (es ++ rest) hperm (hout e List.mem_cons_self)
    obtain ⟨l', hsteps, hsent, hwaiting, hshifted, hanswers⟩ := ih
      (l := { l with waiting := es ++ rest, answers := l.answers ++ [(e, false)] }) (List.Perm.refl _)
      (fun d hd => hout d (List.mem_cons_of_mem e hd))
    refine ⟨l', .head hstep hsteps, hsent, hwaiting, hshifted, ?_⟩
    rw [hanswers, List.append_assoc]
    rfl

end OrderedExecution

import Kithara.OrderedExecution

/-! Reading a line of changes off what was sent. Replaying all that was sent gives the ledger and
what it will still do; so does replaying only what is unread over the stamps of the answers read,
as long as no change is read past on one of its targets alone. -/
namespace OrderedProjection

open BasisReplay OrderedExecution

variable {ι σ κ : Type*} [DecidableEq ι] [LinearOrder σ] [LinearOrder κ]

abbrev InOrder (es : List (Entry ι σ κ)) : Prop := es.Pairwise fun d e => d.key < e.key

/-- Part of what was sent, in order, with all that took effect; and what of it still waits. -/
structure Slice (l : Line ι σ κ) (H W : List (Entry ι σ κ)) : Prop where
  order : InOrder H
  sent : ∀ e ∈ H, e ∈ l.sent
  shifted : ∀ e ∈ l.shifted, e ∈ H
  waitOrder : InOrder W
  waiting : ∀ e, e ∈ W ↔ e ∈ l.waiting ∧ e ∈ H

omit [DecidableEq ι] [LinearOrder σ] in
theorem inOrder_ext {es ds : List (Entry ι σ κ)} (hes : InOrder es) (hds : InOrder ds)
    (h : ∀ e, e ∈ es ↔ e ∈ ds) : es = ds := by
  have : Std.Irrefl fun d e : Entry ι σ κ => d.key < e.key := ⟨fun e => lt_irrefl e.key⟩
  have : Std.Antisymm fun d e : Entry ι σ κ => d.key < e.key :=
    ⟨fun _ _ h h' => absurd (h.trans h') (lt_irrefl _)⟩
  exact hes.eq_of_mem_iff hds h

omit [DecidableEq ι] [LinearOrder σ] in
theorem head_of_mem {d : Entry ι σ κ} {es q : List (Entry ι σ κ)} (hes : InOrder es)
    (hq : InOrder (d :: q)) (hsub : ∀ e ∈ es, e ∈ d :: q) (hd : d ∈ es) :
    ∃ rest, es = d :: rest ∧ ∀ e ∈ rest, e ∈ q := by
  cases es with
  | nil => exact absurd hd List.not_mem_nil
  | cons e rest =>
    have hed : e = d := by
      rcases List.mem_cons.mp hd with rfl | hd
      · rfl
      · have hlt : e.key < d.key := List.rel_of_pairwise_cons hes hd
        rcases List.mem_cons.mp (hsub e List.mem_cons_self) with rfl | he
        · rfl
        · exact absurd (hlt.trans (List.rel_of_pairwise_cons hq he)) (lt_irrefl _)
    subst hed
    refine ⟨rest, rfl, fun b hb => ?_⟩
    have hlt : e.key < b.key := List.rel_of_pairwise_cons hes hb
    rcases List.mem_cons.mp (hsub b (List.mem_cons_of_mem e hb)) with rfl | hb'
    · exact absurd hlt (lt_irrefl _)
    · exact hb'

omit [DecidableEq ι] [LinearOrder σ] [LinearOrder κ] in
theorem tail_of_notMem {d : Entry ι σ κ} {es q : List (Entry ι σ κ)}
    (hsub : ∀ e ∈ es, e ∈ d :: q) (hd : d ∉ es) : ∀ e ∈ es, e ∈ q := by
  intro e he
  rcases List.mem_cons.mp (hsub e he) with rfl | hq
  · exact absurd he hd
  · exact hq

/-- A replay of the slice, stopped at some point: what took effect before it, then what waits. -/
structure Stopped (base : ι → σ) (l : Line ι σ κ) (W p q sp sq wp wq : List (Entry ι σ κ)) :
    Prop where
  shifted : l.shifted = sp ++ sq
  waiting : W = wp ++ wq
  shiftedLeft : ∀ e ∈ sp, e ∈ p
  shiftedRight : ∀ e ∈ sq, e ∈ q
  waitingLeft : ∀ e ∈ wp, e ∈ p
  waitingRight : ∀ e ∈ wq, e ∈ q
  ahead : wp ≠ [] → sq = []
  replay : replay base (p.map Entry.toChange) =
    replay ((sp.map Entry.toChange).foldl record base) (wp.map Entry.toChange)

theorem stopped_missed {base : ι → σ} {l : Line ι σ κ} {H W p q : List (Entry ι σ κ)}
    {d : Entry ι σ κ} (h : Invariant base l) (hs : Slice l H W) (hsplit : H = p ++ d :: q)
    {sp sq wp wq : List (Entry ι σ κ)} (hst : Stopped base l W p (d :: q) sp sq wp wq)
    (hd : (d, false) ∈ l.answers) :
    ¬ Current (replay base (p.map Entry.toChange)) d.toChange := by
  have hdead := (h.missed d hd).2
  have horder : InOrder (p ++ d :: q) := hsplit ▸ hs.order
  have hbefore (e : Entry ι σ κ) (he : e ∈ p) : e.key < d.key :=
    (List.pairwise_append.mp horder).2.2 e he d List.mem_cons_self
  have hafter (e : Entry ι σ κ) (he : e ∈ d :: q) : d.key ≤ e.key := by
    rcases List.mem_cons.mp he with rfl | he
    · exact le_rfl
    · exact (List.rel_of_pairwise_cons (List.pairwise_append.mp horder).2.1 he).le
  have hledger : ledgerBefore base l d.key = (sp.map Entry.toChange).foldl record base := by
    have hsp : sp.filter (fun e => e.key < d.key) = sp :=
      List.filter_eq_self.mpr fun e he => decide_eq_true (hbefore e (hst.shiftedLeft e he))
    have hsq : sq.filter (fun e => e.key < d.key) = [] :=
      List.filter_eq_nil_iff.mpr fun e he => by
        simpa using hafter e (hst.shiftedRight e he)
    simp only [ledgerBefore, hst.shifted, List.filter_append, hsp, hsq, List.append_nil]
  rw [hst.replay, ← hledger]
  apply hdead
  intro c hc
  have hcW : c ∈ W := hst.waiting ▸ List.mem_append_left wq hc
  have hcwait := ((hs.waiting c).mp hcW).1
  exact ⟨hbefore c (hst.waitingLeft c hc), h.strict c (h.waiting c hcwait), h.ahead c hcwait,
    Or.inl hcwait⟩

theorem stopped_shifted {base : ι → σ} {l : Line ι σ κ} {H W p q : List (Entry ι σ κ)}
    {d : Entry ι σ κ} (h : Invariant base l) (hs : Slice l H W) (hsplit : H = p ++ d :: q)
    {sp sq wp wq : List (Entry ι σ κ)} (hst : Stopped base l W p (d :: q) sp sq wp wq)
    (hd : d ∈ l.shifted) : ∃ rest, sq = d :: rest ∧ (∀ e ∈ rest, e ∈ q) ∧ wp = [] ∧
      Current (replay base (p.map Entry.toChange)) d.toChange := by
  have horder : InOrder (p ++ d :: q) := hsplit ▸ hs.order
  have hsq : d ∈ sq := by
    rcases List.mem_append.mp (hst.shifted ▸ hd) with hd | hd
    · have hp := hst.shiftedLeft d hd
      exact absurd ((List.pairwise_append.mp horder).2.2 d hp d List.mem_cons_self) (lt_irrefl _)
    · exact hd
  have hsqOrder : InOrder sq := (List.pairwise_append.mp (hst.shifted ▸ h.order)).2.1
  obtain ⟨rest, rfl, hrest⟩ := head_of_mem hsqOrder (List.pairwise_append.mp horder).2.1
    hst.shiftedRight hsq
  have hwp : wp = [] := by
    by_contra hne
    exact List.cons_ne_nil _ _ (hst.ahead hne)
  refine ⟨rest, rfl, hrest, hwp, ?_⟩
  have hchain := h.chain
  rw [hst.shifted, List.map_append, List.map_cons] at hchain
  rw [hst.replay, hwp]
  exact (chained_append.mp hchain).2.1

theorem stopped {base : ι → σ} {l : Line ι σ κ} {H W : List (Entry ι σ κ)} (h : Invariant base l)
    (hs : Slice l H W) (p q : List (Entry ι σ κ)) (hsplit : H = p ++ q) :
    ∃ sp sq wp wq, Stopped base l W p q sp sq wp wq := by
  induction p using List.reverseRecOn generalizing q with
  | nil =>
    rw [List.nil_append] at hsplit
    subst hsplit
    refine ⟨[], l.shifted, [], W, rfl, rfl, by simp, hs.shifted, by simp, ?_, by simp, rfl⟩
    exact fun e he => ((hs.waiting e).mp he).2
  | append_singleton p d ih =>
    have hsplit' : H = p ++ d :: q := by rw [hsplit]; simp
    obtain ⟨sp, sq, wp, wq, hst⟩ := ih (d :: q) hsplit'
    have horder : InOrder (p ++ d :: q) := hsplit' ▸ hs.order
    have hleft {es : List (Entry ι σ κ)} (hes : ∀ e ∈ es, e ∈ p) : ∀ e ∈ es, e ∈ p ++ [d] :=
      fun e he => List.mem_append_left [d] (hes e he)
    have hleft' {es : List (Entry ι σ κ)} (hes : ∀ e ∈ es, e ∈ p) :
        ∀ e ∈ es ++ [d], e ∈ p ++ [d] := by
      intro e he
      rcases List.mem_append.mp he with he | he
      · exact List.mem_append_left [d] (hes e he)
      · exact List.mem_append_right p he
    by_cases hshifted : d ∈ l.shifted
    · obtain ⟨rest, rfl, hrest, rfl, hcurrent⟩ := stopped_shifted h hs hsplit' hst hshifted
      have hwait : d ∉ wq := by
        intro hd
        have hdW : d ∈ W := hst.waiting ▸ hd
        exact lt_irrefl _ (h.ahead d ((hs.waiting d).mp hdW).1 d hshifted)
      refine ⟨sp ++ [d], rest, [], wq, ?_, hst.waiting, hleft' hst.shiftedLeft, hrest, by simp,
        tail_of_notMem hst.waitingRight hwait, fun hn => absurd rfl hn, ?_⟩
      · rw [hst.shifted, List.append_assoc]
        rfl
      · rw [List.map_append, List.map_append, List.foldl_append, List.map_singleton, replay_concat,
          judge_of_current hcurrent, hst.replay]
        rfl
    · have hsq : ∀ e ∈ sq, e ∈ q := tail_of_notMem hst.shiftedRight fun hd =>
        hshifted (hst.shifted ▸ List.mem_append_right sp hd)
      by_cases hwaiting : d ∈ W
      · have hdwait := ((hs.waiting d).mp hwaiting).1
        have hnil : sq = [] := by
          cases sq with
          | nil => rfl
          | cons b rest =>
            have hb : b ∈ l.shifted := hst.shifted ▸ List.mem_append_right sp List.mem_cons_self
            have hlt : d.key < b.key := List.rel_of_pairwise_cons
              (List.pairwise_append.mp horder).2.1 (hsq b List.mem_cons_self)
            exact absurd (hlt.trans (h.ahead d hdwait b hb)) (lt_irrefl _)
        have hwq : d ∈ wq := by
          rcases List.mem_append.mp (hst.waiting ▸ hwaiting) with hd | hd
          · have hp := hst.waitingLeft d hd
            exact absurd ((List.pairwise_append.mp horder).2.2 d hp d List.mem_cons_self)
              (lt_irrefl _)
          · exact hd
        have hwqOrder : InOrder wq := (List.pairwise_append.mp (hst.waiting ▸ hs.waitOrder)).2.1
        obtain ⟨rest, rfl, hrest⟩ := head_of_mem hwqOrder (List.pairwise_append.mp horder).2.1
          hst.waitingRight hwq
        refine ⟨sp, sq, wp ++ [d], rest, hst.shifted, ?_, hleft hst.shiftedLeft, hsq,
          hleft' hst.waitingLeft, hrest, fun _ => hnil, ?_⟩
        · rw [hst.waiting, List.append_assoc]
          rfl
        · rw [List.map_append, List.map_append, List.map_singleton, replay_concat, replay_concat,
            hst.replay]
      · have hmissed : (d, false) ∈ l.answers := by
          have hd : d ∈ H := hsplit' ▸ by simp
          rcases h.accounted d (hs.sent d hd) with hw | hsh | hm
          · exact absurd ((hs.waiting d).mpr ⟨hw, hd⟩) hwaiting
          · exact absurd hsh hshifted
          · exact hm
        have hwq : ∀ e ∈ wq, e ∈ q := tail_of_notMem hst.waitingRight fun hd =>
          hwaiting (hst.waiting ▸ List.mem_append_right wp hd)
        refine ⟨sp, sq, wp, wq, hst.shifted, hst.waiting, hleft hst.shiftedLeft, hsq,
          hleft hst.waitingLeft, hwq, hst.ahead, ?_⟩
        rw [List.map_append, List.map_singleton, replay_concat,
          judge_of_not (stopped_missed h hs hsplit' hst hmissed), hst.replay]

theorem replay_sent {base : ι → σ} {l : Line ι σ κ} {H W : List (Entry ι σ κ)}
    (h : Invariant base l) (hs : Slice l H W) :
    replay base (H.map Entry.toChange) = replay (ledger base l) (W.map Entry.toChange) := by
  obtain ⟨sp, sq, wp, wq, hst⟩ := stopped h hs H [] (List.append_nil H).symm
  have hsq : sq = [] := List.eq_nil_iff_forall_not_mem.mpr fun e he =>
    absurd (hst.shiftedRight e he) List.not_mem_nil
  have hwq : wq = [] := List.eq_nil_iff_forall_not_mem.mpr fun e he =>
    absurd (hst.waitingRight e he) List.not_mem_nil
  rw [hst.replay, ledger, hst.shifted, hst.waiting, hsq, hwq, List.append_nil, List.append_nil]

structure Read (base : ι → σ) (l : Line ι σ κ) (n : ℕ) (known : ι → σ) : Prop where
  above : base ≤ known
  shown : ∀ e, (e, true) ∈ l.answers.take n → ∀ t ∈ e.names, e.stamp ≤ known t
  source : ∀ t, known t = base t ∨
    ∃ e, (e, true) ∈ l.answers.take n ∧ t ∈ e.names ∧ known t = e.stamp

/-- What is left to replay: the changes on some target whose answer is not read. -/
def unread (l : Line ι σ κ) (n : ℕ) (c : Change ι σ) : Bool :=
  c.stamp ∉ (l.answers.take n).map (fun a => a.1.stamp) ∧ ¬ c.basis.isEmpty

def Passed (l : Line ι σ κ) (n : ℕ) (e : Entry ι σ κ) (t : ι) : Prop :=
  ∃ d, (d, true) ∈ l.answers.take n ∧ t ∈ d.names ∧ e.stamp < d.stamp

/-- No change that took effect unread is passed on some of its targets and not on others. -/
def Uniform (l : Line ι σ κ) (n : ℕ) : Prop :=
  ∀ e ∈ l.shifted, unread l n e.toChange = true →
    ∀ t ∈ e.names, ∀ u ∈ e.names, Passed l n e t → Passed l n e u

section

variable {base known : ι → σ} {l : Line ι σ κ} {n : ℕ} {H W : List (Entry ι σ κ)}

omit [DecidableEq ι] [LinearOrder κ] in
theorem passed_lt (hr : Read base l n known) {e : Entry ι σ κ} {t : ι} (h : Passed l n e t) :
    e.stamp < known t := by
  obtain ⟨d, hd, ht, hlt⟩ := h
  exact hlt.trans_le (hr.shown d hd t ht)

omit [DecidableEq ι] [LinearOrder σ] [LinearOrder κ] in
theorem split_map {pre post : List (Change ι σ)} {c : Change ι σ}
    (h : H.map Entry.toChange = pre ++ c :: post) : ∃ p e q, H = p ++ e :: q ∧
      pre = p.map Entry.toChange ∧ c = e.toChange ∧ post = q.map Entry.toChange := by
  obtain ⟨p, r, hH, hp, hr⟩ := List.map_eq_append_iff.mp h
  obtain ⟨e, q, rfl, he, hq⟩ := List.map_eq_cons_iff.mp hr
  exact ⟨p, e, q, hH, hp.symm, he.symm, hq.symm⟩

theorem same_of_stamp (h : Invariant base l) {d e : Entry ι σ κ} (hd : d ∈ l.sent)
    (he : e ∈ l.sent) (hstamp : d.stamp = e.stamp) : d = e := by
  have : Std.Symm fun a b : Entry ι σ κ => a.stamp ≠ b.stamp := ⟨fun _ _ hab => hab.symm⟩
  have hne : l.sent.Pairwise fun a b => a.stamp ≠ b.stamp := h.stamps.imp fun hab => hab.ne
  by_contra hde
  exact List.Pairwise.forall hne hd he hde hstamp

theorem stamp_reached (h : Invariant base l) (hs : Slice l H W) {p q : List (Entry ι σ κ)}
    (hsplit : H = p ++ q) {d : Entry ι σ κ} (hd : d ∈ l.shifted) (hdp : d ∈ p) {t : ι}
    (ht : t ∈ d.names) : d.stamp ≤ replay base (p.map Entry.toChange) t := by
  obtain ⟨p₁, p₂, rfl⟩ := List.append_of_mem hdp
  have hsplit' : H = p₁ ++ d :: (p₂ ++ q) := by rw [hsplit]; simp
  obtain ⟨sp, sq, wp, wq, hst⟩ := stopped h hs p₁ (d :: (p₂ ++ q)) hsplit'
  obtain ⟨_, _, _, _, hcurrent⟩ := stopped_shifted h hs hsplit' hst hd
  rw [List.map_append, List.map_cons]
  apply stamp_le_replay _ hcurrent ht
  intro c hc
  obtain ⟨e, he, rfl⟩ := List.mem_map.mp hc
  exact (h.strict e (hs.sent e (hsplit' ▸ by simp [he]))).forward

/-- What the answers show of a target, seen from a change that nothing read passed there. -/
theorem known_behind (h : Invariant base l) (hs : Slice l H W) (hr : Read base l n known)
    {p q : List (Entry ι σ κ)} {e : Entry ι σ κ} (hsplit : H = p ++ e :: q) {t : ι}
    (hbefore : ∀ d, (d, true) ∈ l.answers.take n → t ∈ d.names → d ∈ p) :
    known t ≤ replay base (p.map Entry.toChange) t := by
  have hgrow : base t ≤ replay base (p.map Entry.toChange) t := by
    apply le_replay
    intro c hc
    obtain ⟨d, hd, rfl⟩ := List.mem_map.mp hc
    exact (h.strict d (hs.sent d (hsplit ▸ List.mem_append_left _ hd))).forward
  rcases hr.source t with hbase | ⟨d, hd, ht, hstamp⟩
  · rw [hbase]
    exact hgrow
  · rw [hstamp]
    exact stamp_reached h hs hsplit (h.applied d (List.mem_of_mem_take hd)) (hbefore d hd ht) ht

omit [DecidableEq ι] [LinearOrder σ] in
theorem mem_before (hs : Slice l H W) {p q : List (Entry ι σ κ)} {d e : Entry ι σ κ}
    (hsplit : H = p ++ e :: q) (hd : d ∈ l.shifted) (hlt : d.key < e.key) : d ∈ p := by
  have horder : InOrder (p ++ e :: q) := hsplit ▸ hs.order
  rcases List.mem_append.mp (hsplit ▸ hs.shifted d hd) with hdp | hdq
  · exact hdp
  · rcases List.mem_cons.mp hdq with rfl | hdq
    · exact absurd hlt (lt_irrefl _)
    · have := List.rel_of_pairwise_cons (List.pairwise_append.mp horder).2.1 hdq
      exact absurd (hlt.trans this) (lt_irrefl _)

/-- Of two changes of a target that took effect, the later has the greater stamp. -/
theorem key_lt_of_stamp_lt (h : Invariant base l) (hs : Slice l H W) {d e : Entry ι σ κ}
    (hd : d ∈ l.shifted) (he : e ∈ l.shifted) {t : ι} (htd : t ∈ d.names) (hte : t ∈ e.names)
    (hlt : d.stamp < e.stamp) : d.key < e.key := by
  by_contra hnot
  rcases lt_or_eq_of_le (not_lt.mp hnot) with hkey | hkey
  · obtain ⟨p, q, hsplit⟩ := List.append_of_mem (hs.shifted d hd)
    obtain ⟨sp, sq, wp, wq, hst⟩ := stopped h hs p (d :: q) hsplit
    obtain ⟨_, _, _, _, hcurrent⟩ := stopped_shifted h hs hsplit hst hd
    have hreached := stamp_reached h hs hsplit he (mem_before hs hsplit he hkey) hte
    have hbehind := current_lt hcurrent (h.strict d (h.shifted d hd)) htd
    exact absurd (hreached.trans_lt hbehind) (not_lt.mpr hlt.le)
  · have : Std.Symm fun a b : Entry ι σ κ => a.key ≠ b.key := ⟨fun _ _ hab => hab.symm⟩
    have hne : d ≠ e := fun hde => absurd hlt (hde ▸ lt_irrefl _)
    exact List.Pairwise.forall h.keys (h.shifted d hd) (h.shifted e he) hne hkey.symm

omit [DecidableEq ι] [LinearOrder κ] in
theorem notMem_of_unread {e : Entry ι σ κ} (hu : unread l n e.toChange = true) (took : Bool) :
    (e, took) ∉ l.answers.take n := by
  intro he
  simp only [unread, decide_eq_true_eq, Bool.decide_and, Bool.and_eq_true] at hu
  exact hu.1 (List.mem_map_of_mem he)

theorem mem_of_read (h : Invariant base l) {e : Entry ι σ κ} (he : e ∈ l.sent)
    (hbasis : ¬ e.basis.isEmpty = true) (hu : unread l n e.toChange = false) :
    ∃ took, (e, took) ∈ l.answers.take n := by
  have hstamp : e.stamp ∈ (l.answers.take n).map fun a => a.1.stamp := by
    by_contra hnot
    exact absurd (hu.symm.trans (decide_eq_true ⟨hnot, hbasis⟩)) Bool.false_ne_true
  obtain ⟨⟨d, took⟩, hd, hde⟩ := List.mem_map.mp hstamp
  have hsent : d ∈ l.sent := by
    cases took with
    | true => exact h.shifted d (h.applied d (List.mem_of_mem_take hd))
    | false => exact (h.missed d (List.mem_of_mem_take hd)).1
  obtain rfl := same_of_stamp h hsent he hde
  exact ⟨took, hd⟩

theorem slice_covered (h : Invariant base l) (hs : Slice l H W) (hr : Read base l n known)
    (hu : Uniform l n) {p q : List (Entry ι σ κ)} {e : Entry ι σ κ} (hsplit : H = p ++ e :: q)
    (hleft : unread l n e.toChange = true) :
    Covered base known (p.map Entry.toChange) e.toChange := by
  have he : e ∈ l.sent := hs.sent e (hsplit ▸ by simp)
  obtain ⟨sp, sq, wp, wq, hst⟩ := stopped h hs p (e :: q) hsplit
  have before {d : Entry ι σ κ} (hd : (d, true) ∈ l.answers.take n) (hlt : d.key < e.key) :
      d ∈ p := mem_before hs hsplit (h.applied d (List.mem_of_mem_take hd)) hlt
  by_cases hshifted : e ∈ l.shifted
  · obtain ⟨_, _, _, _, hcurrent⟩ := stopped_shifted h hs hsplit hst hshifted
    by_cases hpassed : ∃ t ∈ e.names, Passed l n e t
    · obtain ⟨t, ht, hp⟩ := hpassed
      exact Or.inl ⟨hcurrent, fun u hu' => passed_lt hr (hu e hshifted hleft t ht u hu' hp)⟩
    · refine Or.inr fun t ht => known_behind h hs hr hsplit fun d hd htd => before hd ?_
      have hdshifted := h.applied d (List.mem_of_mem_take hd)
      have hnot : ¬ e.stamp < d.stamp := fun hlt => hpassed ⟨t, ht, d, hd, htd, hlt⟩
      apply key_lt_of_stamp_lt h hs hdshifted hshifted htd ht
      refine lt_of_le_of_ne (not_lt.mp hnot) fun hstamp => ?_
      obtain rfl := same_of_stamp h (h.shifted d hdshifted) he hstamp
      exact notMem_of_unread hleft true hd
  · -- A change that has not taken effect is behind all that has, or was answered behind it.
    refine Or.inr fun t _ => known_behind h hs hr hsplit fun d hd _ => before hd ?_
    have hdshifted := h.applied d (List.mem_of_mem_take hd)
    rcases h.accounted e he with hw | hsh | hm
    · exact h.ahead e hw d hdshifted
    · exact absurd hsh hshifted
    · have hdrop : (e, false) ∈ l.answers.drop n := by
        rw [← List.take_append_drop n l.answers] at hm
        rcases List.mem_append.mp hm with hm | hm
        · exact absurd hm (notMem_of_unread hleft false)
        · exact hm
      have hfifo := h.fifo
      rw [← List.take_append_drop n l.answers] at hfifo
      exact (List.pairwise_append.mp hfifo).2.2 _ hd _ hdrop rfl rfl

theorem slice_known (h : Invariant base l) (hs : Slice l H W) (hr : Read base l n known)
    {p q : List (Entry ι σ κ)} {e : Entry ι σ κ} (hsplit : H = p ++ e :: q)
    (hleft : unread l n e.toChange = false) :
    Known base known (p.map Entry.toChange) e.toChange := by
  intro hcurrent t ht
  have he : e ∈ l.sent := hs.sent e (hsplit ▸ by simp)
  by_cases hbasis : e.basis.isEmpty = true
  · have hnil : e.basis = [] := List.isEmpty_iff.mp hbasis
    simp [Change.names, hnil] at ht
  · obtain ⟨took, hread⟩ := mem_of_read h he hbasis hleft
    cases took with
    | true => exact hr.shown e hread t ht
    | false =>
      obtain ⟨sp, sq, wp, wq, hst⟩ := stopped h hs p (e :: q) hsplit
      exact absurd hcurrent (stopped_missed h hs hsplit hst (List.mem_of_mem_take hread))

/-- Read uniformly, the unread changes over the stamps read give the ledger with what waits. -/
theorem unread_agrees (h : Invariant base l) (hs : Slice l H W) (hr : Read base l n known)
    (hu : Uniform l n) : replay known ((H.map Entry.toChange).filter (unread l n)) =
      replay (ledger base l) (W.map Entry.toChange) := by
  funext t
  have hstrict : ∀ c ∈ H.map Entry.toChange, Strict c := by
    intro c hc
    obtain ⟨e, he, rfl⟩ := List.mem_map.mp hc
    exact h.strict e (hs.sent e he)
  rw [replay_left hr.above hstrict ?_ t, ← replay_sent h hs]
  · apply max_eq_right
    have hall : H = H ++ [] := (List.append_nil H).symm
    rcases hr.source t with hbase | ⟨d, hd, ht, hstamp⟩
    · rw [hbase]
      exact le_replay base (fun c hc => (hstrict c hc).forward) t
    · rw [hstamp]
      have hdshifted := h.applied d (List.mem_of_mem_take hd)
      exact stamp_reached h hs hall hdshifted (hs.shifted d hdshifted) ht
  · intro pre c post hsplit
    obtain ⟨p, e, q, hH, rfl, rfl, rfl⟩ := split_map hsplit
    cases hleft : unread l n e.toChange with
    | true => exact slice_covered h hs hr hu hH hleft
    | false => exact slice_known h hs hr hH hleft

theorem unread_misses (h : Invariant base l) (hr : Read base l n known) (hu : ¬ Uniform l n) :
    ∃ e ∈ l.shifted, ∃ t ∈ e.names, ∀ H W, Slice l H W →
      replay known ((H.map Entry.toChange).filter (unread l n)) t ≠
        replay (ledger base l) (W.map Entry.toChange) t := by
  simp only [Uniform, not_forall] at hu
  obtain ⟨e, hshifted, hleft, x, hx, y, hy, hpassed, hnot⟩ := hu
  refine ⟨e, hshifted, y, hy, fun H W hs => ?_⟩
  rw [← replay_sent h hs]
  obtain ⟨p, q, hsplit⟩ := List.append_of_mem (hs.shifted e hshifted)
  obtain ⟨sp, sq, wp, wq, hst⟩ := stopped h hs p (e :: q) hsplit
  obtain ⟨_, _, _, _, hcurrent⟩ := stopped_shifted h hs hsplit hst hshifted
  have hstrict : ∀ c ∈ H.map Entry.toChange, Strict c := by
    intro c hc
    obtain ⟨d, hd, rfl⟩ := List.mem_map.mp hc
    exact h.strict d (hs.sent d hd)
  have hbehind : known y < e.stamp := by
    rcases hr.source y with hbase | ⟨d, hd, hyd, hstamp⟩
    · have hgrow : base y ≤ replay base (p.map Entry.toChange) y := by
        apply le_replay
        intro c hc
        exact (hstrict c (by
          rw [hsplit, List.map_append]
          exact List.mem_append_left _ hc)).forward
      rw [hbase]
      exact hgrow.trans_lt (current_lt hcurrent (h.strict e (h.shifted e hshifted)) hy)
    · rw [hstamp]
      refine lt_of_le_of_ne (not_lt.mp fun hlt => hnot ⟨d, hd, hyd, hlt⟩) fun heq => ?_
      have hd' := h.shifted d (h.applied d (List.mem_of_mem_take hd))
      obtain rfl := same_of_stamp h hd' (h.shifted e hshifted) heq
      exact notMem_of_unread hleft true hd
  have hdistinct : ((H.map Entry.toChange).map Change.stamp).Nodup := by
    rw [List.map_map]
    refine (List.nodup_map_iff_inj_on ?_).mpr ?_
    · exact hs.order.imp fun hab => ne_of_apply_ne Entry.key hab.ne
    · exact fun a ha b hb hab => same_of_stamp h (hs.sent a ha) (hs.sent b hb) hab
  rw [hsplit, List.map_append, List.map_cons] at hstrict hdistinct ⊢
  exact replay_misses hr.above hstrict hdistinct hcurrent hx (passed_lt hr hpassed) hy hbehind

theorem passed_iff (h : Invariant base l) (hr : Read base l n known) {e : Entry ι σ κ}
    (he : e ∈ l.shifted) {t : ι} (ht : t ∈ e.names) :
    Passed l n e t ↔ e.stamp < known t := by
  refine ⟨passed_lt hr, fun hlt => ?_⟩
  rcases hr.source t with hbase | ⟨d, hd, htd, hstamp⟩
  · obtain ⟨a, b, hsplit⟩ := List.append_of_mem he
    have hchain := h.chain
    rw [hsplit, List.map_append, List.map_cons] at hchain
    obtain ⟨hbefore, hcurrent, _⟩ := chained_append.mp hchain
    have hgrow : base t ≤ (a.map Entry.toChange).foldl record base t := by
      apply le_foldl_record hbefore
      intro c hc
      obtain ⟨d, hd, rfl⟩ := List.mem_map.mp hc
      have hd' : d ∈ l.shifted := hsplit ▸ List.mem_append_left _ hd
      exact (h.strict d (h.shifted d hd')).forward
    have hbehind := current_lt hcurrent (h.strict e (h.shifted e he)) ht
    rw [hbase] at hlt
    exact absurd hlt (not_lt.mpr (hgrow.trans hbehind.le))
  · exact ⟨d, hd, htd, hstamp ▸ hlt⟩

theorem stamp_le_ledger (h : Invariant base l) {e : Entry ι σ κ} (he : e ∈ l.shifted) {t : ι}
    (ht : t ∈ e.names) : e.stamp ≤ ledger base l t := by
  obtain ⟨a, b, hsplit⟩ := List.append_of_mem he
  have hchain := h.chain
  rw [hsplit, List.map_append, List.map_cons] at hchain
  obtain ⟨_, _, hafter⟩ := chained_append.mp hchain
  have hgrow := le_foldl_record hafter (fun c hc => by
    obtain ⟨d, hd, rfl⟩ := List.mem_map.mp hc
    have hd' : d ∈ l.shifted := hsplit ▸ List.mem_append_right _ (List.mem_cons_of_mem _ hd)
    exact (h.strict d (h.shifted d hd')).forward) t
  rw [record_of_mem ht] at hgrow
  rw [ledger, hsplit, List.map_append, List.map_cons, List.foldl_append]
  exact hgrow

theorem step_answers {l l' : Line ι σ κ} (st : Step base l l') :
    l.answers <+: l'.answers := by
  cases st with
  | send e _ _ _ => exact List.prefix_rfl
  | miss e rest _ _ _ => exact List.prefix_append _ _
  | reject e rest _ _ => exact List.prefix_append _ _
  | shift e rest _ _ _ => exact List.prefix_rfl
  | answer e _ => exact List.prefix_append _ _

theorem step_shifted {l l' : Line ι σ κ} (st : Step base l l') :
    l.shifted <+: l'.shifted := by
  cases st with
  | shift e rest _ _ _ => exact List.prefix_append _ _
  | _ => exact List.prefix_rfl

/-- Reading no further, a line stays uniform: what takes effect is ahead of all that was read. -/
theorem step_uniform {l l' : Line ι σ κ} (h : Invariant base l) (hn : n ≤ l.answers.length)
    (hu : Uniform l n) (st : Step base l l') : Uniform l' n := by
  obtain ⟨more, hmore⟩ := step_answers st
  have htake : l'.answers.take n = l.answers.take n := by
    rw [← hmore, List.take_append_of_le_length hn]
  have old : ∀ e ∈ l.shifted, unread l' n e.toChange = true →
      ∀ t ∈ e.names, ∀ u ∈ e.names, Passed l' n e t → Passed l' n e u := by
    intro e he hunread t ht u hu'
    simp only [unread, Passed, htake] at hunread ⊢
    exact hu e he hunread t ht u hu'
  cases st with
  | send e _ _ _ => exact old
  | miss e rest _ _ _ => exact old
  | reject e rest _ _ => exact old
  | answer e _ => exact old
  | shift e rest hperm _ hcurrent =>
    intro d hd
    rcases List.mem_append.mp hd with hd | hd
    · exact old d hd
    · obtain rfl := List.mem_singleton.mp hd
      rintro _ t ht u _ ⟨b, hb, htb, hlt⟩
      have hsent : d ∈ l.sent := h.waiting d (hperm.mem_iff.mpr List.mem_cons_self)
      have hb' := h.applied b (List.mem_of_mem_take (htake ▸ hb))
      have hle := stamp_le_ledger h hb' htb
      have hbehind := current_lt hcurrent (h.strict d hsent) ht
      exact absurd (hle.trans_lt hbehind) (not_lt.mpr hlt.le)

theorem steps_uniform {l l' : Line ι σ κ} (h : Invariant base l) (hn : n ≤ l.answers.length)
    (hu : Uniform l n) (st : Steps base l l') : Uniform l' n := by
  have hboth : Uniform l' n ∧ n ≤ l'.answers.length ∧ Invariant base l' := by
    induction st with
    | refl => exact ⟨hu, hn, h⟩
    | tail _ st ih =>
      obtain ⟨hu', hn', h'⟩ := ih
      exact ⟨step_uniform h' hn' hu' st, hn'.trans (step_answers st).length_le,
        step_invariant h' st⟩
  exact hboth.1

theorem steps_answers {l l' : Line ι σ κ} (st : Steps base l l') : l.answers <+: l'.answers := by
  induction st with
  | refl => exact List.prefix_rfl
  | tail _ st ih => exact ih.trans (step_answers st)

theorem steps_shifted {l l' : Line ι σ κ} (st : Steps base l l') :
    l.shifted <+: l'.shifted := by
  induction st with
  | refl => exact List.prefix_rfl
  | tail _ st ih => exact ih.trans (step_shifted st)

omit [DecidableEq ι] [LinearOrder σ] in
theorem exists_inOrder (es : List (Entry ι σ κ)) (hkeys : es.Pairwise fun d e => d.key ≠ e.key) :
    ∃ H, InOrder H ∧ ∀ e, e ∈ H ↔ e ∈ es := by
  have : Std.Total fun d e : Entry ι σ κ => d.key ≤ e.key := ⟨fun d e => le_total d.key e.key⟩
  have : IsTrans (Entry ι σ κ) fun d e => d.key ≤ e.key := ⟨fun _ _ _ => le_trans⟩
  refine ⟨es.insertionSort fun d e => d.key ≤ e.key, ?_, fun e => List.mem_insertionSort _⟩
  have hle := List.pairwise_insertionSort (fun d e : Entry ι σ κ => d.key ≤ e.key) es
  have hne := (List.perm_insertionSort (fun d e : Entry ι σ κ => d.key ≤ e.key) es).symm.pairwise
    hkeys fun hde => Ne.symm hde
  exact hle.imp₂ (fun _ _ => lt_of_le_of_ne) hne

theorem waiting_keys (h : Invariant base l) : l.waiting.Pairwise fun d e => d.key ≠ e.key := by
  have : Std.Symm fun d e : Entry ι σ κ => d.key ≠ e.key := ⟨fun _ _ hde => hde.symm⟩
  apply List.Nodup.pairwise_of_forall_ne h.once
  intro d hd e he hde
  exact List.Pairwise.forall h.keys (h.waiting d hd) (h.waiting e he) hde

theorem missed_not_current (h : Invariant base l) {d : Entry ι σ κ} (hd : (d, false) ∈ l.answers)
    {p : List (Entry ι σ κ)} (hp : InOrder p)
    (hmem : ∀ e, e ∈ p ↔ e ∈ l.sent ∧ e.key < d.key) :
    ¬ Current (replay base (p.map Entry.toChange)) d.toChange := by
  obtain ⟨H, horder, hH⟩ := exists_inOrder l.sent h.keys
  obtain ⟨W, hwaitOrder, hW⟩ := exists_inOrder l.waiting (waiting_keys h)
  have hslice : Slice l H W := by
    refine ⟨horder, fun e => (hH e).mp, fun e he => (hH e).mpr (h.shifted e he), hwaitOrder, ?_⟩
    intro e
    rw [hW, hH]
    exact ⟨fun he => ⟨he, h.waiting e he⟩, And.left⟩
  obtain ⟨p', q, hsplit⟩ := List.append_of_mem ((hH d).mpr (h.missed d hd).1)
  have hsplitOrder : InOrder (p' ++ d :: q) := hsplit ▸ horder
  obtain ⟨hp', hdq, hbefore⟩ := List.pairwise_append.mp hsplitOrder
  have hsame : p' = p := by
    apply inOrder_ext hp' hp
    intro e
    rw [hmem, ← hH, hsplit]
    constructor
    · intro he
      exact ⟨List.mem_append_left _ he, hbefore e he d List.mem_cons_self⟩
    · rintro ⟨he, hlt⟩
      rcases List.mem_append.mp he with he | he
      · exact he
      · rcases List.mem_cons.mp he with rfl | he
        · exact absurd hlt (lt_irrefl _)
        · exact absurd (hlt.trans (List.rel_of_pairwise_cons hdq he)) (lt_irrefl _)
  obtain ⟨sp, sq, wp, wq, hst⟩ := stopped h hslice p' (d :: q) hsplit
  rw [← hsame]
  exact stopped_missed h hslice hsplit hst hd

end

end OrderedProjection

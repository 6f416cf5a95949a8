import Mathlib.Order.Lattice
import Mathlib.Order.Defs.LinearOrder
import Mathlib.Data.List.Basic
import Mathlib.Data.List.Induction
import Mathlib.Data.List.Nodup

/-! Changes planned on the last change of each target they touch. A ledger keeps the stamp of
each target's last change; a change takes effect only on the stamps it was planned on. -/
namespace BasisReplay

variable {ι σ : Type*}

/-- The stamp a change leaves on its targets, and for each the stamp it was planned on. -/
structure Change (ι σ : Type*) where
  stamp : σ
  basis : List (ι × σ)

def Change.names (c : Change ι σ) : List ι := c.basis.map Prod.fst

def Current (L : ι → σ) (c : Change ι σ) : Prop := ∀ e ∈ c.basis, L e.1 = e.2

instance [DecidableEq σ] (L : ι → σ) (c : Change ι σ) : Decidable (Current L c) :=
  inferInstanceAs (Decidable (∀ e ∈ c.basis, L e.1 = e.2))

variable [DecidableEq ι]

def record (L : ι → σ) (c : Change ι σ) : ι → σ := fun t => if t ∈ c.names then c.stamp else L t

theorem record_of_mem {L : ι → σ} {c : Change ι σ} {t : ι} (h : t ∈ c.names) :
    record L c t = c.stamp := if_pos h

theorem record_of_notMem {L : ι → σ} {c : Change ι σ} {t : ι} (h : t ∉ c.names) :
    record L c t = L t := if_neg h

def Chained (L : ι → σ) : List (Change ι σ) → Prop
  | [] => True
  | c :: cs => Current L c ∧ Chained (record L c) cs

/-- The stamp of the last change of `t` in the list. -/
def lastStamp (cs : List (Change ι σ)) (t : ι) : Option σ :=
  ((cs.filter fun c => t ∈ c.names).getLast?).map Change.stamp

theorem lastStamp_concat (cs : List (Change ι σ)) (c : Change ι σ) (t : ι) :
    lastStamp (cs ++ [c]) t = if t ∈ c.names then some c.stamp else lastStamp cs t := by
  by_cases h : t ∈ c.names
  · simp [lastStamp, List.filter_append, h]
  · simp [lastStamp, List.filter_append, h]

theorem foldl_record (L : ι → σ) (cs : List (Change ι σ)) (t : ι) :
    cs.foldl record L t = (lastStamp cs t).getD (L t) := by
  induction cs using List.reverseRecOn with
  | nil => rfl
  | append_singleton cs c ih =>
    rw [List.foldl_concat, lastStamp_concat]
    by_cases h : t ∈ c.names
    · rw [record_of_mem h, if_pos h, Option.getD_some]
    · rw [record_of_notMem h, if_neg h, ih]

theorem chained_append {L : ι → σ} {cs ds : List (Change ι σ)} :
    Chained L (cs ++ ds) ↔ Chained L cs ∧ Chained (cs.foldl record L) ds := by
  induction cs generalizing L with
  | nil => simp [Chained]
  | cons c cs ih => simp [Chained, ih, and_assoc]

theorem chain_links {L : ι → σ} {pre post : List (Change ι σ)} {c : Change ι σ}
    (h : Chained L (pre ++ c :: post)) {e : ι × σ} (he : e ∈ c.basis) :
    e.2 = (lastStamp pre e.1).getD (L e.1) := by
  have hc : Current (pre.foldl record L) c := (chained_append.mp h).2.1
  rw [← hc e he, foldl_record]

theorem chained_notMem {L : ι → σ} {cs : List (Change ι σ)} (hc : Chained L cs) {t : ι}
    (hL : ∀ c ∈ cs, ∀ e ∈ c.basis, e.2 ≠ L t) : ∀ c ∈ cs, t ∉ c.names := by
  induction cs generalizing L with
  | nil => exact fun c hc => absurd hc List.not_mem_nil
  | cons c cs ih =>
    have hhead : t ∉ c.names := by
      intro ht
      obtain ⟨e, he, rfl⟩ := List.mem_map.mp ht
      exact hL c List.mem_cons_self e he (hc.1 e he).symm
    intro d hd
    rcases List.mem_cons.mp hd with rfl | hd
    · exact hhead
    · apply ih hc.2 _ d hd
      intro b hb e he
      rw [record_of_notMem hhead]
      exact hL b (List.mem_cons_of_mem c hb) e he

section Growth

variable [LinearOrder σ]

def judge (L : ι → σ) (c : Change ι σ) : ι → σ := if Current L c then record L c else L

def replay (L : ι → σ) (cs : List (Change ι σ)) : ι → σ := cs.foldl judge L

/-- A change is planned on stamps no later than its own. -/
def Forward (c : Change ι σ) : Prop := ∀ e ∈ c.basis, e.2 ≤ c.stamp

def Outdated (L : ι → σ) (c : Change ι σ) : Prop := ∃ e ∈ c.basis, e.2 < L e.1

theorem le_record {L : ι → σ} {c : Change ι σ} (hc : Current L c) (hf : Forward c) :
    L ≤ record L c := by
  intro t
  by_cases h : t ∈ c.names
  · rw [record_of_mem h]
    obtain ⟨e, he, rfl⟩ := List.mem_map.mp h
    rw [hc e he]
    exact hf e he
  · rw [record_of_notMem h]

theorem le_foldl_record {L : ι → σ} {cs : List (Change ι σ)} (hc : Chained L cs)
    (hf : ∀ c ∈ cs, Forward c) : L ≤ cs.foldl record L := by
  induction cs generalizing L with
  | nil => exact le_refl L
  | cons c cs ih =>
    have hhead : L ≤ record L c := le_record hc.1 (hf c List.mem_cons_self)
    exact hhead.trans (ih hc.2 fun d hd => hf d (List.mem_cons_of_mem c hd))

omit [DecidableEq ι] in
theorem Outdated.not_current {L L' : ι → σ} {c : Change ι σ} (h : Outdated L c) (hL : L ≤ L') :
    ¬ Current L' c := by
  obtain ⟨e, he, hlt⟩ := h
  intro hc
  have hgrown : L e.1 ≤ e.2 := (hL e.1).trans (le_of_eq (hc e he))
  exact absurd hlt (not_lt.mpr hgrown)

theorem judge_of_current {L : ι → σ} {c : Change ι σ} (h : Current L c) : judge L c = record L c :=
  if_pos h

theorem judge_of_not {L : ι → σ} {c : Change ι σ} (h : ¬ Current L c) : judge L c = L := if_neg h

theorem replay_concat (L : ι → σ) (cs : List (Change ι σ)) (c : Change ι σ) :
    replay L (cs ++ [c]) = judge (replay L cs) c := by
  simp only [replay, List.foldl_concat]

theorem replay_append (L : ι → σ) (cs ds : List (Change ι σ)) :
    replay L (cs ++ ds) = replay (replay L cs) ds := by
  simp only [replay, List.foldl_append]

theorem le_judge (L : ι → σ) {c : Change ι σ} (hf : Forward c) : L ≤ judge L c := by
  by_cases h : Current L c
  · rw [judge_of_current h]
    exact le_record h hf
  · rw [judge_of_not h]

theorem le_replay (L : ι → σ) {cs : List (Change ι σ)} (hf : ∀ c ∈ cs, Forward c) :
    L ≤ replay L cs := by
  induction cs generalizing L with
  | nil => exact le_refl L
  | cons c cs ih =>
    have hhead : L ≤ judge L c := le_judge L (hf c List.mem_cons_self)
    exact hhead.trans (ih (judge L c) fun d hd => hf d (List.mem_cons_of_mem c hd))

/-- What a replay leaves on a target was there before, or is the stamp of a change of the list
that was current at its turn. -/
theorem replay_source (L : ι → σ) (cs : List (Change ι σ)) (t : ι) :
    replay L cs t = L t ∨ ∃ pre c post, cs = pre ++ c :: post ∧ Current (replay L pre) c ∧
      t ∈ c.names ∧ replay L cs t = c.stamp := by
  induction cs using List.reverseRecOn with
  | nil => exact Or.inl rfl
  | append_singleton cs c ih =>
    rw [replay_concat]
    by_cases hc : Current (replay L cs) c ∧ t ∈ c.names
    · rw [judge_of_current hc.1, record_of_mem hc.2]
      exact Or.inr ⟨cs, c, [], rfl, hc.1, hc.2, rfl⟩
    · have hsame : judge (replay L cs) c t = replay L cs t := by
        by_cases hcurrent : Current (replay L cs) c
        · rw [judge_of_current hcurrent, record_of_notMem fun ht => hc ⟨hcurrent, ht⟩]
        · rw [judge_of_not hcurrent]
      rw [hsame]
      rcases ih with ih | ⟨pre, d, post, rfl, hd, ht, he⟩
      · exact Or.inl ih
      · exact Or.inr ⟨pre, d, post ++ [c], by simp, hd, ht, he⟩

theorem stamp_le_replay {L : ι → σ} {pre post : List (Change ι σ)} {c : Change ι σ}
    (hf : ∀ d ∈ post, Forward d) (hc : Current (replay L pre) c) {t : ι} (ht : t ∈ c.names) :
    c.stamp ≤ replay L (pre ++ c :: post) t := by
  have hgrow : judge (replay L pre) c t ≤ replay (judge (replay L pre) c) post t :=
    le_replay _ hf t
  rw [judge_of_current hc, record_of_mem ht] at hgrow
  rw [replay_append]
  show c.stamp ≤ replay (judge (replay L pre) c) post t
  rw [judge_of_current hc]
  exact hgrow

def Strict (c : Change ι σ) : Prop := ∀ e ∈ c.basis, e.2 < c.stamp

omit [DecidableEq ι] in
theorem Strict.forward {c : Change ι σ} (h : Strict c) : Forward c :=
  fun e he => le_of_lt (h e he)

omit [DecidableEq ι] in
theorem current_lt {L : ι → σ} {c : Change ι σ} (hc : Current L c) (hs : Strict c) {t : ι}
    (ht : t ∈ c.names) : L t < c.stamp := by
  obtain ⟨e, he, rfl⟩ := List.mem_map.mp ht
  rw [hc e he]
  exact hs e he

end Growth

section Projection

variable [LinearOrder σ]

/-- For a change left to replay: what the answers left on its targets is all past its stamp, or
nothing of it is past what the replay has reached. -/
def Covered (base known : ι → σ) (pre : List (Change ι σ)) (c : Change ι σ) : Prop :=
  (Current (replay base pre) c ∧ ∀ t ∈ c.names, c.stamp < known t) ∨
    ∀ t ∈ c.names, known t ≤ replay base pre t

/-- A change not left to replay leaves no stamp past what the answers left. -/
def Known (base known : ι → σ) (pre : List (Change ι σ)) (c : Change ι σ) : Prop :=
  Current (replay base pre) c → ∀ t ∈ c.names, c.stamp ≤ known t

theorem judge_covered {base known L : ι → σ} {pre : List (Change ι σ)} {c : Change ι σ}
    (hs : Strict c) (hc : Covered base known pre c)
    (hL : ∀ t, L t = max (known t) (replay base pre t)) :
    ∀ t, judge L c t = max (known t) (judge (replay base pre) c t) := by
  intro t
  rcases hc with ⟨hcurrent, hpast⟩ | hbehind
  · -- Its targets have moved on: it takes effect for neither reader, as neither's stamp shows it.
    have hnames : t ∈ c.names → replay base pre t < known t := fun ht =>
      (current_lt hcurrent hs ht).trans (hpast t ht)
    have hleft : judge L c t = L t := by
      by_cases hL' : Current L c
      · rw [judge_of_current hL']
        by_cases ht : t ∈ c.names
        · have hlt := current_lt hL' hs ht
          rw [hL t] at hlt
          exact absurd (hpast t ht) (not_lt.mpr ((le_max_left _ _).trans hlt.le))
        · exact record_of_notMem ht
      · rw [judge_of_not hL']
    rw [hleft, hL t, judge_of_current hcurrent]
    by_cases ht : t ∈ c.names
    · rw [record_of_mem ht, max_eq_left (hnames ht).le, max_eq_left (hpast t ht).le]
    · rw [record_of_notMem ht]
  · -- The answers show nothing ahead of it, so both readers judge it alike.
    have hagree : ∀ t ∈ c.names, L t = replay base pre t := fun t ht => by
      rw [hL t, max_eq_right (hbehind t ht)]
    have hiff : Current L c ↔ Current (replay base pre) c := by
      refine forall₂_congr fun e he => ?_
      rw [hagree e.1 (List.mem_map_of_mem he)]
    by_cases hcurrent : Current (replay base pre) c
    · rw [judge_of_current hcurrent, judge_of_current (hiff.mpr hcurrent)]
      by_cases ht : t ∈ c.names
      · have hle : known t ≤ c.stamp := (hbehind t ht).trans (current_lt hcurrent hs ht).le
        rw [record_of_mem ht, record_of_mem ht, max_eq_right hle]
      · rw [record_of_notMem ht, record_of_notMem ht, hL t]
    · rw [judge_of_not hcurrent, judge_of_not (mt hiff.mp hcurrent), hL t]

theorem judge_known {base known : ι → σ} {pre : List (Change ι σ)} {c : Change ι σ}
    (hs : Strict c) (hk : Known base known pre c) (t : ι) :
    max (known t) (replay base pre t) = max (known t) (judge (replay base pre) c t) := by
  by_cases hcurrent : Current (replay base pre) c
  · rw [judge_of_current hcurrent]
    by_cases ht : t ∈ c.names
    · have hle : c.stamp ≤ known t := hk hcurrent t ht
      rw [record_of_mem ht, max_eq_left hle, max_eq_left ((current_lt hcurrent hs ht).le.trans hle)]
    · rw [record_of_notMem ht]
  · rw [judge_of_not hcurrent]

/-- The projection: what is left to replay brings the known stamps to those of the full run. -/
theorem replay_left {base known : ι → σ} {left : Change ι σ → Bool} {cs : List (Change ι σ)}
    (hbase : base ≤ known) (hstrict : ∀ c ∈ cs, Strict c)
    (hleft : ∀ pre c post, cs = pre ++ c :: post →
      if left c then Covered base known pre c else Known base known pre c) :
    ∀ t, replay known (cs.filter left) t = max (known t) (replay base cs t) := by
  induction cs using List.reverseRecOn with
  | nil => exact fun t => (max_eq_left (hbase t)).symm
  | append_singleton cs c ih =>
    have hcs := ih (fun d hd => hstrict d (List.mem_append_left [c] hd))
      (fun pre d post h => hleft pre d (post ++ [c]) (by rw [h]; simp))
    have hc := hleft cs c [] rfl
    have hs := hstrict c (List.mem_append_right cs List.mem_cons_self)
    intro t
    cases hl : left c with
    | true =>
      rw [hl] at hc
      rw [List.filter_append, List.filter_cons_of_pos hl, List.filter_nil, replay_concat,
        replay_concat]
      exact judge_covered hs hc hcs t
    | false =>
      rw [hl] at hc
      rw [List.filter_append, List.filter_cons_of_neg (by simp [hl]), List.filter_nil,
        List.append_nil, replay_concat, hcs t]
      exact judge_known hs hc t

omit [DecidableEq ι] [LinearOrder σ] in
theorem split_cases {pre pre' post post' : List (Change ι σ)} {c d : Change ι σ}
    (h : pre ++ c :: post = pre' ++ d :: post') :
    (pre = pre' ∧ c = d) ∨ (∃ mid, pre' = pre ++ c :: mid ∧ post = mid ++ d :: post') ∨
      ∃ mid, pre = pre' ++ d :: mid ∧ post' = mid ++ c :: post := by
  rcases List.append_eq_append_iff.mp h with ⟨mid, hpre, hpost⟩ | ⟨mid, hpre, hpost⟩
  · cases mid with
    | nil =>
      rw [List.append_nil] at hpre
      rw [List.nil_append] at hpost
      exact Or.inl ⟨hpre.symm, (List.cons.inj hpost).1⟩
    | cons b mid =>
      obtain ⟨rfl, htail⟩ := List.cons.inj hpost
      exact Or.inr (Or.inl ⟨mid, hpre, htail⟩)
  · cases mid with
    | nil =>
      rw [List.append_nil] at hpre
      rw [List.nil_append] at hpost
      exact Or.inl ⟨hpre, (List.cons.inj hpost).1.symm⟩
    | cons b mid =>
      obtain ⟨rfl, htail⟩ := List.cons.inj hpost
      exact Or.inr (Or.inr ⟨mid, hpre, htail⟩)

/-- When the answers show one target of a change past it and another not up to it, the reader
takes the change for overtaken and never sees the second target where it is. -/
theorem replay_misses {base known : ι → σ} {left : Change ι σ → Bool}
    {pre post : List (Change ι σ)} {c : Change ι σ} (hbase : base ≤ known)
    (hstrict : ∀ d ∈ pre ++ c :: post, Strict d)
    (hdistinct : ((pre ++ c :: post).map Change.stamp).Nodup)
    (hc : Current (replay base pre) c) {x y : ι} (hx : x ∈ c.names) (hpast : c.stamp < known x)
    (hy : y ∈ c.names) (hbehind : known y < c.stamp) :
    replay known ((pre ++ c :: post).filter left) y ≠ replay base (pre ++ c :: post) y := by
  have hsame : ∀ p d q, pre ++ c :: post = p ++ d :: q → ∀ p' d' q',
      pre ++ c :: post = p' ++ d' :: q' → d.stamp = d'.stamp → p = p' ∧ d = d' := by
    intro p d q h p' d' q' h' hstamp
    rw [h, List.map_append, List.map_cons] at hdistinct
    have hnot := List.nodup_middle.mp hdistinct |>.notMem
    rcases split_cases (h.symm.trans h') with heq | ⟨mid, _, hpost⟩ | ⟨mid, hpre, _⟩
    · exact heq
    · refine absurd ?_ hnot
      rw [hstamp, hpost]
      simp
    · refine absurd ?_ hnot
      rw [hstamp, hpre]
      simp
  have hfrom : ∀ p q, pre ++ c :: post = p ++ q → ∀ p' d q', pre ++ c :: post = p' ++ d :: q' →
      Current (replay base p') d → y ∈ d.names → c.stamp ≤ d.stamp →
      replay known (p.filter left) y ≠ d.stamp := by
    intro p
    induction p using List.reverseRecOn with
    | nil => exact fun q _ p' d q' _ _ _ hle => ne_of_lt (hbehind.trans_le hle)
    | append_singleton p b ih =>
      intro q hsplit p' d q' hd hcd hyd hle
      have hsplit' : pre ++ c :: post = p ++ b :: q := by rw [hsplit]; simp
      have hprev := ih (b :: q) hsplit' p' d q' hd hcd hyd hle
      by_cases hl : left b = true
      · rw [List.filter_append, List.filter_cons_of_pos hl, List.filter_nil, replay_concat]
        by_cases hb : Current (replay known (p.filter left)) b ∧ y ∈ b.names
        · rw [judge_of_current hb.1, record_of_mem hb.2]
          intro hstamp
          obtain ⟨rfl, rfl⟩ := hsame p b q hsplit' p' d q' hd hstamp
          rcases split_cases hsplit' with ⟨rfl, rfl⟩ | ⟨mid, rfl, _⟩ | ⟨mid, rfl, _⟩
          · -- The overtaken change itself: its first target is past it.
            have hlt := current_lt hb.1 (hstrict c (by simp)) hx
            have hle' : known x ≤ replay known (pre.filter left) x :=
              le_replay known (fun d hd => (hstrict d (by simp [List.mem_of_mem_filter hd])).forward)
                x
            exact absurd hlt (not_lt.mpr (hpast.le.trans hle'))
          · -- A later change of the second target: it is planned on one that was not seen.
            have hseen : replay known ((pre ++ c :: mid).filter left) y =
                replay base (pre ++ c :: mid) y := by
              obtain ⟨e, he, rfl⟩ := List.mem_map.mp hb.2
              rw [hb.1 e he, hcd e he]
            have hgrown : c.stamp ≤ replay base (pre ++ c :: mid) y :=
              stamp_le_replay (fun d hd => (hstrict d (by rw [hsplit']; simp [hd])).forward) hc hy
            rcases replay_source base (pre ++ c :: mid) y with hsource | ⟨p₁, d₁, q₁, h₁, hc₁, hy₁, he₁⟩
            · have hlow : base y < c.stamp := (hbase y).trans_lt hbehind
              exact absurd (hgrown.trans (le_of_eq hsource)) (not_le.mpr hlow)
            · have hle₁ : c.stamp ≤ d₁.stamp := hgrown.trans (le_of_eq he₁)
              have hsplit₁ : pre ++ c :: post = p₁ ++ d₁ :: (q₁ ++ b :: q) := by
                rw [hsplit', h₁]
                simp
              exact ih (b :: q) hsplit' p₁ d₁ _ hsplit₁ hc₁ hy₁ hle₁ (hseen.trans he₁)
          · -- A change of the second target before the overtaken one has an older stamp.
            have hold : b.stamp ≤ replay base (p ++ b :: mid) y :=
              stamp_le_replay (fun d hd => (hstrict d (by simp [hd])).forward) hcd hb.2
            have hlt := current_lt hc (hstrict c (by simp)) hy
            exact absurd (hold.trans_lt hlt) (not_lt.mpr hle)
        · have hkeep : judge (replay known (p.filter left)) b y =
              replay known (p.filter left) y := by
            by_cases hcurrent : Current (replay known (p.filter left)) b
            · rw [judge_of_current hcurrent, record_of_notMem fun ht => hb ⟨hcurrent, ht⟩]
            · rw [judge_of_not hcurrent]
          rw [hkeep]
          exact hprev
      · rw [List.filter_append, List.filter_cons_of_neg hl, List.filter_nil, List.append_nil]
        exact hprev
  have hgrown : c.stamp ≤ replay base (pre ++ c :: post) y :=
    stamp_le_replay (fun d hd => (hstrict d (by simp [hd])).forward) hc hy
  rcases replay_source base (pre ++ c :: post) y with hsource | ⟨p, d, q, h, hcd, hyd, he⟩
  · have hlow : base y < c.stamp := (hbase y).trans_lt hbehind
    exact absurd (hgrown.trans (le_of_eq hsource)) (not_le.mpr hlow)
  · rw [he]
    exact hfrom _ [] (by simp) p d q h hcd hyd (hgrown.trans (le_of_eq he))

end Projection

end BasisReplay

import Kithara.AbrDecision
import Mathlib.Data.List.Induction
import Mathlib.Tactic.Linarith

/-! Where a decision leaves the player. Candidates are what the caps let through; the one chosen
is the highest that the throughput carries, or the lowest there is. -/
namespace Abr

variable {variants : List VariantInfo} {cap : Option ℕ} {c c₁ c₂ : VariantIndex × ℕ}

def fitsCap (cap : Option ℕ) (bandwidth : ℕ) : Prop := ∀ limit ∈ cap, bandwidth ≤ limit

theorem mem_sortedCandidates : c ∈ sortedCandidates variants cap ↔
    (∃ v ∈ variants, v.variantIndex = c.1 ∧ v.bandwidthBps.getD 0 = c.2) ∧ fitsCap cap c.2 := by
  rw [sortedCandidates, List.mem_insertionSort, List.mem_filter, List.mem_map]
  refine and_congr ?_ ?_
  · constructor
    · rintro ⟨v, hv, rfl⟩
      exact ⟨v, hv, rfl, rfl⟩
    · rintro ⟨v, hv, hindex, hbandwidth⟩
      exact ⟨v, hv, Prod.ext hindex hbandwidth⟩
  · cases cap with
    | none => simp [fitsCap]
    | some limit => simp [fitsCap]

theorem sortedCandidates_sorted (variants : List VariantInfo) (cap : Option ℕ) :
    (sortedCandidates variants cap).Pairwise fun a b => a.2 ≤ b.2 :=
  List.pairwise_insertionSort ..

theorem maxByBandwidth_spec (candidates : List (VariantIndex × ℕ)) :
    (maxByBandwidth candidates = none ∧ candidates = []) ∨
      ∃ c ∈ candidates, maxByBandwidth candidates = some c ∧ ∀ x ∈ candidates, x.2 ≤ c.2 := by
  induction candidates using List.reverseRecOn with
  | nil => exact Or.inl ⟨rfl, rfl⟩
  | append_singleton rest x ih =>
    have hstep : maxByBandwidth (rest ++ [x]) =
        if (maxByBandwidth rest).all (fun b => b.2 ≤ x.2) then some x
        else maxByBandwidth rest := by
      rw [maxByBandwidth, List.foldl_append]
      rfl
    rw [hstep]
    rcases ih with ⟨hnone, rfl⟩ | ⟨c, hc, hmax, hall⟩
    · rw [hnone]
      exact Or.inr ⟨x, by simp, rfl, by simp⟩
    · rw [hmax, Option.all_some]
      refine Or.inr ?_
      by_cases hle : c.2 ≤ x.2
      · refine ⟨x, by simp, if_pos (decide_eq_true hle), ?_⟩
        intro y hy
        rcases List.mem_append.mp hy with hy | hy
        · exact (hall y hy).trans hle
        · exact (congrArg Prod.snd (List.mem_singleton.mp hy)).le
      · refine ⟨c, List.mem_append_left _ hc, if_neg (by simpa using hle), ?_⟩
        intro y hy
        rcases List.mem_append.mp hy with hy | hy
        · exact hall y hy
        · rw [List.mem_singleton.mp hy]
          omega

/-- Either the highest that the throughput carries, or, where it carries none, the lowest. -/
theorem candidateVariant_spec {sorted : List (VariantIndex × ℕ)} {adjusted : ℚ}
    (hsorted : sorted.Pairwise fun a b => a.2 ≤ b.2)
    (h : candidateVariant sorted adjusted = some c) : c ∈ sorted ∧
      (((c.2 : ℚ) ≤ adjusted ∧ ∀ x ∈ sorted, (x.2 : ℚ) ≤ adjusted → x.2 ≤ c.2) ∨
        ((∀ x ∈ sorted, ¬ (x.2 : ℚ) ≤ adjusted) ∧ ∀ x ∈ sorted, c.2 ≤ x.2)) := by
  rw [candidateVariant] at h
  rcases maxByBandwidth_spec (sorted.filter fun c => (c.2 : ℚ) ≤ adjusted) with
    ⟨hnone, hempty⟩ | ⟨d, hd, hmax, hall⟩
  · rw [hnone, Option.none_or] at h
    have hover : ∀ x ∈ sorted, ¬ (x.2 : ℚ) ≤ adjusted := by
      intro x hx hle
      have hmem : x ∈ sorted.filter fun c => (c.2 : ℚ) ≤ adjusted :=
        List.mem_filter.mpr ⟨hx, decide_eq_true hle⟩
      rw [hempty] at hmem
      cases hmem
    cases sorted with
    | nil => cases h
    | cons first rest =>
      cases h
      refine ⟨List.mem_cons_self, Or.inr ⟨hover, ?_⟩⟩
      intro x hx
      rcases List.mem_cons.mp hx with rfl | hx
      · exact le_rfl
      · exact (List.pairwise_cons.mp hsorted).1 x hx
  · rw [hmax, Option.some_or] at h
    cases h
    obtain ⟨hmem, hle⟩ := List.mem_filter.mp hd
    refine ⟨hmem, Or.inl ⟨of_decide_eq_true hle, ?_⟩⟩
    exact fun x hx hxle => hall x (List.mem_filter.mpr ⟨hx, decide_eq_true hxle⟩)

theorem candidateVariant_mono {sorted : List (VariantIndex × ℕ)} {a₁ a₂ : ℚ}
    (hsorted : sorted.Pairwise fun a b => a.2 ≤ b.2) (hle : a₁ ≤ a₂)
    (h₁ : candidateVariant sorted a₁ = some c₁) (h₂ : candidateVariant sorted a₂ = some c₂) :
    c₁.2 ≤ c₂.2 := by
  obtain ⟨hmem₁, hcase₁⟩ := candidateVariant_spec hsorted h₁
  obtain ⟨hmem₂, hcase₂⟩ := candidateVariant_spec hsorted h₂
  rcases hcase₁ with ⟨hfits, -⟩ | ⟨-, hlowest⟩
  · rcases hcase₂ with ⟨-, hhighest⟩ | ⟨hover, -⟩
    · exact hhighest c₁ hmem₁ (hfits.trans hle)
    · exact absurd (hfits.trans hle) (hover c₁ hmem₁)
  · exact hlowest c₂ hmem₂

theorem candidateVariant_none {sorted : List (VariantIndex × ℕ)} {adjusted : ℚ}
    (h : candidateVariant sorted adjusted = none) : sorted = [] := by
  rw [candidateVariant, Option.or_eq_none_iff] at h
  exact List.head?_eq_none_iff.mp h.2

theorem adjustedThroughput_mono {e₁ e₂ : ℕ} (h : e₁ ≤ e₂) (safety : ℚ) :
    adjustedThroughput e₁ safety ≤ adjustedThroughput e₂ safety := by
  have hcast : (e₁ : ℚ) ≤ e₂ := Nat.cast_le.mpr h
  rw [adjustedThroughput, adjustedThroughput]
  rcases le_or_gt 0 safety with hpos | hneg
  · exact max_le_max (div_le_div_of_nonneg_right hcast hpos) le_rfl
  · have hzero : ∀ e : ℕ, (e : ℚ) / safety ≤ 0 := fun e =>
      div_nonpos_of_nonneg_of_nonpos (Nat.cast_nonneg e) hneg.le
    rw [max_eq_right (hzero e₁), max_eq_right (hzero e₂)]

/-- The candidates of a state: those the caps let through, and while it escapes only others than
the current variant. -/
def AbrState.candidates (s : AbrState) (view : AbrView) : List (VariantIndex × ℕ) :=
  if s.escaping then
    (sortedCandidates view.variants (s.maxBw view)).filter fun c => c.1 ≠ s.currentVariant
  else sortedCandidates view.variants (s.maxBw view)

def AbrView.adjusted (view : AbrView) (estimateBps : ℕ) : ℚ :=
  adjustedThroughput estimateBps view.settings.throughputSafetyFactor

def AbrState.overCap (s : AbrState) (view : AbrView) : Bool :=
  (s.maxBw view).any fun cap => currentBandwidth view.variants s.currentVariant > cap

def AbrView.upBuffer (view : AbrView) : Bool :=
  view.bufferAhead.all fun b => b ≥ view.settings.minBufferForUpSwitch

def AbrView.urgent (view : AbrView) : Bool :=
  view.bufferAhead.any fun b => b ≤ view.settings.urgentDownswitchBuffer

inductive Decides (s : AbrState) (view : AbrView) (estimateBps : ℕ) : AbrDecision → Prop where
  | bare (h : s.candidates view = []) :
      Decides s view estimateBps (.stay s.currentVariant .alreadyOptimal)
  | escape {c : VariantIndex × ℕ}
      (hc : candidateVariant (s.candidates view) (view.adjusted estimateBps) = some c)
      (h : s.escaping = true) :
      Decides s view estimateBps (.upSwitch s.currentVariant c.1 .escapeStalled)
  | capped {c : VariantIndex × ℕ}
      (hc : candidateVariant (s.candidates view) (view.adjusted estimateBps) = some c)
      (h : s.escaping = false) (hcap : s.overCap view = true) (hother : c.1 ≠ s.currentVariant) :
      Decides s view estimateBps (.downSwitch s.currentVariant c.1 .downSwitch)
  | up {c : VariantIndex × ℕ}
      (hc : candidateVariant (s.candidates view) (view.adjusted estimateBps) = some c)
      (h : s.escaping = false) (hcap : ¬ (s.overCap view = true ∧ c.1 ≠ s.currentVariant))
      (hup : currentBandwidth view.variants s.currentVariant < c.2) (hbuffer : view.upBuffer = true)
      (hroom : c.2 * view.settings.upHysteresisRatio ≤ view.adjusted estimateBps) :
      Decides s view estimateBps (.upSwitch s.currentVariant c.1 .upSwitch)
  | held {c : VariantIndex × ℕ}
      (hc : candidateVariant (s.candidates view) (view.adjusted estimateBps) = some c)
      (h : s.escaping = false) (hcap : ¬ (s.overCap view = true ∧ c.1 ≠ s.currentVariant))
      (hup : currentBandwidth view.variants s.currentVariant < c.2)
      (hno : ¬ (view.upBuffer = true ∧
        c.2 * view.settings.upHysteresisRatio ≤ view.adjusted estimateBps)) :
      Decides s view estimateBps (.stay s.currentVariant .bufferTooLowForUpSwitch)
  | down {c : VariantIndex × ℕ} {reason : AbrReason}
      (hc : candidateVariant (s.candidates view) (view.adjusted estimateBps) = some c)
      (h : s.escaping = false) (hcap : ¬ (s.overCap view = true ∧ c.1 ≠ s.currentVariant))
      (hdown : c.2 < currentBandwidth view.variants s.currentVariant)
      (hreason : reason = if view.urgent then .urgentDownSwitch else .downSwitch)
      (hwhy : view.urgent = true ∨ view.adjusted estimateBps ≤
        currentBandwidth view.variants s.currentVariant * view.settings.downHysteresisRatio) :
      Decides s view estimateBps (.downSwitch s.currentVariant c.1 reason)
  | optimal {c : VariantIndex × ℕ}
      (hc : candidateVariant (s.candidates view) (view.adjusted estimateBps) = some c)
      (h : s.escaping = false) (hcap : ¬ (s.overCap view = true ∧ c.1 ≠ s.currentVariant))
      (hle : c.2 ≤ currentBandwidth view.variants s.currentVariant)
      (hno : c.2 < currentBandwidth view.variants s.currentVariant → ¬ (view.urgent = true ∨
        view.adjusted estimateBps ≤
          currentBandwidth view.variants s.currentVariant * view.settings.downHysteresisRatio)) :
      Decides s view estimateBps (.stay s.currentVariant .alreadyOptimal)

theorem decideBandwidth_decides (s : AbrState) (view : AbrView) (estimateBps : ℕ) :
    Decides s view estimateBps (s.decideBandwidth view estimateBps) := by
  have hsorted : (if s.escaping then
      (sortedCandidates view.variants (s.maxBw view)).filter fun c => c.1 ≠ s.currentVariant
    else sortedCandidates view.variants (s.maxBw view)) = s.candidates view := rfl
  unfold AbrState.decideBandwidth
  dsimp only
  rw [hsorted]
  cases hc : candidateVariant (s.candidates view)
      (adjustedThroughput estimateBps view.settings.throughputSafetyFactor) with
  | none => exact .bare (candidateVariant_none hc)
  | some c =>
    obtain ⟨idx, bandwidth⟩ := c
    dsimp only
    cases hescaping : s.escaping with
    | true => exact .escape hc hescaping
    | false =>
      rw [if_neg Bool.false_ne_true]
      split
      · next hcap => exact .capped hc hescaping hcap.1 hcap.2
      · next hcap =>
        split
        · next hup =>
          unfold upSwitch
          dsimp only
          split
          · next hok => exact .up hc hescaping hcap hup hok.1 hok.2
          · next hno => exact .held hc hescaping hcap hup hno
        · next hup =>
          split
          · next hdown =>
            unfold downSwitch
            dsimp only
            split
            · next hurgent =>
              exact .down hc hescaping hcap hdown (if_pos hurgent).symm (Or.inl hurgent)
            · next hcalm =>
              split
              · next hmargin =>
                exact .down hc hescaping hcap hdown (if_neg hcalm).symm (Or.inr hmargin)
              · next hmargin =>
                exact .optimal hc hescaping hcap hdown.le fun _ => not_or.mpr ⟨hcalm, hmargin⟩
          · next hdown =>
            exact .optimal hc hescaping hcap (not_lt.mp hup) fun hlt => absurd hlt hdown

theorem mem_candidates {s : AbrState} {view : AbrView} (h : c ∈ s.candidates view) :
    c ∈ sortedCandidates view.variants (s.maxBw view) ∧
      (s.escaping = true → c.1 ≠ s.currentVariant) := by
  unfold AbrState.candidates at h
  split at h
  · next hescaping =>
    obtain ⟨hmem, hother⟩ := List.mem_filter.mp h
    exact ⟨hmem, fun _ => of_decide_eq_true hother⟩
  · next hstays => exact ⟨h, fun hescaping => absurd hescaping hstays⟩

theorem candidates_sorted (s : AbrState) (view : AbrView) :
    (s.candidates view).Pairwise fun a b => a.2 ≤ b.2 := by
  unfold AbrState.candidates
  split
  · exact (sortedCandidates_sorted _ _).filter _
  · exact sortedCandidates_sorted _ _

/-- Some variant of this index has a bandwidth as described. -/
def Offers (view : AbrView) (index : VariantIndex) (p : ℕ → Prop) : Prop :=
  ∃ v ∈ view.variants, v.variantIndex = index ∧ p (v.bandwidthBps.getD 0)

theorem chosen_offers {s : AbrState} {view : AbrView} {adjusted : ℚ} {p : ℕ → Prop}
    (hc : candidateVariant (s.candidates view) adjusted = some c) (hp : p c.2) :
    Offers view c.1 fun bandwidth => fitsCap (s.maxBw view) bandwidth ∧ p bandwidth := by
  have hmem := (candidateVariant_spec (candidates_sorted s view) hc).1
  obtain ⟨⟨v, hv, hindex, hbandwidth⟩, hfits⟩ := mem_sortedCandidates.mp (mem_candidates hmem).1
  exact ⟨v, hv, hindex, by rw [hbandwidth]; exact ⟨hfits, hp⟩⟩

theorem overCap_limit {s : AbrState} {view : AbrView} (h : s.overCap view = true) :
    ∃ limit ∈ s.maxBw view, limit < currentBandwidth view.variants s.currentVariant := by
  unfold AbrState.overCap at h
  cases hcap : s.maxBw view with
  | none =>
    rw [hcap] at h
    cases h
  | some limit =>
    rw [hcap, Option.any_some, decide_eq_true_eq] at h
    exact ⟨limit, rfl, h⟩

/-- What may be said of a decision's own choice, whatever the interval. -/
structure Chosen (s : AbrState) (view : AbrView) (d : AbrDecision) : Prop where
  capped : d.changed = true → Offers view d.target (fitsCap (s.maxBw view))
  escapes : d.reason = .escapeStalled → d.target ≠ s.currentVariant
  rises : ∀ source target reason, d = .upSwitch source target reason →
    reason ≠ .escapeStalled →
      Offers view target (currentBandwidth view.variants s.currentVariant < ·)
  falls : ∀ source target reason, d = .downSwitch source target reason →
    Offers view target (· < currentBandwidth view.variants s.currentVariant)

theorem stay_chosen (s : AbrState) (view : AbrView) {reason : AbrReason}
    (h : reason ≠ .escapeStalled) : Chosen s view (.stay s.currentVariant reason) where
  capped := fun hc => by cases hc
  escapes := fun hr => absurd hr h
  rises := fun _ _ _ hd => by cases hd
  falls := fun _ _ _ hd => by cases hd

theorem Offers.imp {view : AbrView} {index : VariantIndex} {p q : ℕ → Prop}
    (h : Offers view index p) (hpq : ∀ bandwidth, p bandwidth → q bandwidth) :
    Offers view index q := by
  obtain ⟨v, hv, hindex, hp⟩ := h
  exact ⟨v, hv, hindex, hpq _ hp⟩

theorem decides_chosen {s : AbrState} {view : AbrView} {estimateBps : ℕ} {d : AbrDecision}
    (h : Decides s view estimateBps d) : Chosen s view d := by
  cases h with
  | bare _ => exact stay_chosen s view (by decide)
  | held _ _ _ _ _ => exact stay_chosen s view (by decide)
  | optimal _ _ _ _ _ => exact stay_chosen s view (by decide)
  | escape hc hescaping =>
    have hmem := (candidateVariant_spec (candidates_sorted s view) hc).1
    refine ⟨fun _ => ?_, fun _ => (mem_candidates hmem).2 hescaping, ?_, ?_⟩
    · exact (chosen_offers (p := fun _ => True) hc trivial).imp fun _ hp => hp.1
    · intro source target reason hd hreason
      cases hd
      exact absurd rfl hreason
    · intro source target reason hd
      cases hd
  | @capped c hc _ hcap hother =>
    have hoffers := chosen_offers (p := fun _ => True) hc trivial
    refine ⟨fun _ => hoffers.imp fun _ hp => hp.1, ?_, ?_, ?_⟩
    · intro hreason
      cases hreason
    · intro source target reason hd
      cases hd
    · intro source target reason hd
      cases hd
      obtain ⟨limit, hlimit, hover⟩ := overCap_limit hcap
      exact hoffers.imp fun bandwidth hp => (hp.1 limit hlimit).trans_lt hover
  | up hc _ _ hup _ _ =>
    have hoffers := chosen_offers (p := fun b => currentBandwidth view.variants _ < b) hc hup
    refine ⟨fun _ => hoffers.imp fun _ hp => hp.1, ?_, ?_, ?_⟩
    · intro hreason
      cases hreason
    · intro source target reason hd _
      cases hd
      exact hoffers.imp fun _ hp => hp.2
    · intro source target reason hd
      cases hd
  | down hc _ _ hdown hreason _ =>
    have hoffers := chosen_offers (p := fun b => b < currentBandwidth view.variants _) hc hdown
    refine ⟨fun _ => hoffers.imp fun _ hp => hp.1, ?_, ?_, ?_⟩
    · intro hescape
      have hne : ∀ urgent : Bool, (if urgent then AbrReason.urgentDownSwitch else .downSwitch) ≠
          .escapeStalled := by decide
      exact absurd (hreason.symm.trans hescape) (hne view.urgent)
    · intro source target reason hd
      cases hd
    · intro source target reason hd
      cases hd
      exact hoffers.imp fun _ hp => hp.2

theorem decideUnheld_chosen {s : AbrState} (view : AbrView) {v : Option VariantIndex}
    (hauto : s.mode = .auto v) : Chosen s view (s.decideUnheld view) := by
  unfold AbrState.decideUnheld
  rw [hauto]
  cases hlocked : s.isLocked with
  | true => exact stay_chosen s view (by decide)
  | false =>
    cases hestimate : view.estimateBps with
    | none => exact stay_chosen s view (by decide)
    | some estimateBps => exact decides_chosen (decideBandwidth_decides s view estimateBps)

theorem decide_auto {s : AbrState} {view : AbrView} {v : Option VariantIndex} (now : ℕ)
    (hauto : s.mode = .auto v) : s.decide view now =
      if (s.decideUnheld view).changed = false ∨ isRescue (s.decideUnheld view).reason = true ∨
          s.canSwitchNow now view.settings.minSwitchInterval = true then s.decideUnheld view
      else .stay s.currentVariant .minInterval := by
  unfold AbrState.decide
  rw [hauto]
  dsimp only
  by_cases hrescue : (s.decideUnheld view).changed = false ∨
      isRescue (s.decideUnheld view).reason = true
  · rw [if_pos (hrescue.imp (by simp) Or.inl),
      if_pos (hrescue.imp id fun h => Or.inl h)]
  · rw [not_or] at hrescue
    have hoff : ¬ (¬ (s.decideUnheld view).changed = true ∨
        isRescue (s.decideUnheld view).reason = true ∨ false = true) := by
      simpa using hrescue
    rw [if_neg hoff]
    refine if_congr ?_ rfl rfl
    exact ⟨fun h => Or.inr (Or.inr h), fun h =>
      (h.resolve_left hrescue.1).resolve_left hrescue.2⟩

/-- An automatic decision that changes chooses a variant within the cap; an escape never chooses
the current one; any other up-switch rises and every down-switch falls; a change that is no rescue
waits out the interval; and a locked state does not change. -/
theorem auto_decision_safe (s : AbrState) (view : AbrView) (now : ℕ) (v : Option VariantIndex)
    (hauto : s.mode = .auto v) :
    Chosen s view (s.decide view now) ∧
      ((s.decide view now).changed = true → isRescue (s.decide view now).reason = false →
        s.canSwitchNow now view.settings.minSwitchInterval = true) ∧
      (s.isLocked = true → (s.decide view now).changed = false) := by
  have hchosen := decideUnheld_chosen view hauto
  have hlocked : s.isLocked = true → (s.decideUnheld view).changed = false := by
    intro hlocked
    unfold AbrState.decideUnheld
    rw [hauto, hlocked]
    rfl
  rw [decide_auto now hauto]
  split
  · next hgo =>
    refine ⟨hchosen, ?_, hlocked⟩
    intro hchanged hcalm
    rcases hgo with hstays | hrescue | hready
    · rw [hstays] at hchanged
      cases hchanged
    · rw [hrescue] at hcalm
      cases hcalm
    · exact hready
  · refine ⟨stay_chosen s view (by decide), ?_, fun _ => rfl⟩
    intro hchanged
    cases hchanged

/-- An escape from variant 0 to the lower variant 1 is an up-switch in name only. -/
def stalledState : AbrState := (AbrState.newAt (.auto (some 0)) 0).markEscape

def stalledView : AbrView where
  settings :=
    { minBufferForUpSwitch := 0
      minSwitchInterval := 0
      urgentDownswitchBuffer := 0
      maxBandwidthBps := none
      downHysteresisRatio := 1
      throughputSafetyFactor := 1
      upHysteresisRatio := 1 }
  variants := [⟨some 1000, 0⟩, ⟨some 100, 1⟩]
  bufferAhead := none
  estimateBps := some 50

theorem auto_decision_safe_stalled :
    Chosen stalledState stalledView (stalledState.decide stalledView 0) ∧
      ((stalledState.decide stalledView 0).changed = true →
        isRescue (stalledState.decide stalledView 0).reason = false →
          stalledState.canSwitchNow 0 stalledView.settings.minSwitchInterval = true) ∧
      (stalledState.isLocked = true → (stalledState.decide stalledView 0).changed = false) :=
  auto_decision_safe stalledState stalledView 0 (some 0) (by decide)

theorem escape_falls : stalledState.mode = .auto (some 0) ∧
    ¬ ∀ source target reason, stalledState.decide stalledView 0 = .upSwitch source target reason →
      Offers stalledView target
        (currentBandwidth stalledView.variants stalledState.currentVariant < ·) := by
  refine ⟨by decide, fun hrises => ?_⟩
  obtain ⟨v, hv, hindex, hlt⟩ := hrises 0 1 .escapeStalled (by decide +kernel)
  have hcurrent : currentBandwidth stalledView.variants stalledState.currentVariant = 1000 := by
    decide
  rw [hcurrent] at hlt
  rcases List.mem_cons.mp hv with rfl | hv
  · cases hindex
  · rw [List.mem_singleton.mp hv] at hlt
    exact absurd hlt (by decide)

end Abr

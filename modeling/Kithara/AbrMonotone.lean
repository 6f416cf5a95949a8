import Kithara.AbrOutcome

/-! Two estimates of the throughput, all else equal. A higher estimate leaves the player on no
lower bandwidth, except where it selects a candidate whose headroom it misses while the lower
estimate has switched up. -/
namespace Abr

variable {s : AbrState} {view : AbrView} {e e₁ e₂ : ℕ}

def leftOn (view : AbrView) (d : AbrDecision) : ℕ := currentBandwidth view.variants d.target

def AbrView.with (view : AbrView) (estimateBps : ℕ) : AbrView :=
  { view with estimateBps := some estimateBps }

/-- The test of an up-switch to a candidate: the current variant is within the cap, the candidate
is higher, the buffer is ready and the throughput has the headroom. -/
structure Rises (s : AbrState) (view : AbrView) (estimateBps : ℕ) (c : VariantIndex × ℕ) :
    Prop where
  candidate : candidateVariant (s.candidates view) (view.adjusted estimateBps) = some c
  within : s.overCap view = false
  higher : currentBandwidth view.variants s.currentVariant < c.2
  buffer : view.upBuffer = true
  headroom : c.2 * view.settings.upHysteresisRatio ≤ view.adjusted estimateBps

/-- The lower estimate switches up, and the higher one selects a candidate it has no headroom
for. -/
def Overshoots (s : AbrState) (view : AbrView) (e₁ e₂ : ℕ) : Prop :=
  (∃ c, Rises s view e₁ c) ∧
    ∃ c, candidateVariant (s.candidates view) (view.adjusted e₂) = some c ∧
      view.adjusted e₂ < c.2 * view.settings.upHysteresisRatio

theorem currentBandwidth_mem {variants : List VariantInfo}
    (hindices : (variants.map VariantInfo.variantIndex).Nodup) {v : VariantInfo}
    (hv : v ∈ variants) : currentBandwidth variants v.variantIndex = v.bandwidthBps.getD 0 := by
  have hfind : variants.find? (fun w => w.variantIndex = v.variantIndex) = some v := by
    rw [List.find?_eq_some_iff_getElem]
    obtain ⟨i, hi, rfl⟩ := List.getElem_of_mem hv
    refine ⟨decide_eq_true rfl, i, hi, rfl, ?_⟩
    intro j hj
    have hne := List.pairwise_iff_getElem.mp hindices j i (by simpa using hj.trans hi)
      (by simpa using hi) hj
    simpa using hne
  rw [currentBandwidth, hfind]
  rfl

theorem candidate_bandwidth (hindices : (view.variants.map VariantInfo.variantIndex).Nodup)
    {adjusted : ℚ} {c : VariantIndex × ℕ}
    (hc : candidateVariant (s.candidates view) adjusted = some c) :
    currentBandwidth view.variants c.1 = c.2 := by
  have hmem := (candidateVariant_spec (candidates_sorted s view) hc).1
  obtain ⟨⟨v, hv, hindex, hbandwidth⟩, -⟩ := mem_sortedCandidates.mp (mem_candidates hmem).1
  rw [← hindex, currentBandwidth_mem hindices hv, hbandwidth]

def settled (s : AbrState) (view : AbrView) (estimateBps : ℕ) (c : VariantIndex × ℕ) : ℕ :=
  let current := currentBandwidth view.variants s.currentVariant
  if s.overCap view = true then c.2
  else if current < c.2 then
    if view.upBuffer = true ∧ c.2 * view.settings.upHysteresisRatio ≤ view.adjusted estimateBps
      then c.2 else current
  else if c.2 < current ∧ (view.urgent = true ∨
      view.adjusted estimateBps ≤ current * view.settings.downHysteresisRatio) then c.2
  else current

theorem overCap_other (hindices : (view.variants.map VariantInfo.variantIndex).Nodup)
    {adjusted : ℚ} {c : VariantIndex × ℕ}
    (hc : candidateVariant (s.candidates view) adjusted = some c) (hcap : s.overCap view = true) :
    c.1 ≠ s.currentVariant := by
  intro hsame
  have hmem := (candidateVariant_spec (candidates_sorted s view) hc).1
  obtain ⟨-, hfits⟩ := mem_sortedCandidates.mp (mem_candidates hmem).1
  obtain ⟨limit, hlimit, hover⟩ := overCap_limit hcap
  have hbandwidth := candidate_bandwidth hindices hc
  rw [hsame] at hbandwidth
  have := hfits limit hlimit
  omega

theorem leftOn_settled (hindices : (view.variants.map VariantInfo.variantIndex).Nodup)
    (hfree : s.escaping = false) {c : VariantIndex × ℕ}
    (hc : candidateVariant (s.candidates view) (view.adjusted e) = some c) :
    leftOn view (s.decideBandwidth view e) = settled s view e c := by
  have hbandwidth := candidate_bandwidth hindices hc
  have hdecides := decideBandwidth_decides s view e
  generalize s.decideBandwidth view e = d at hdecides
  unfold settled
  dsimp only
  cases hdecides with
  | bare hempty =>
    rw [hempty] at hc
    cases hc
  | escape _ h =>
    rw [hfree] at h
    cases h
  | capped hc' _ hcap _ =>
    cases hc.symm.trans hc'
    rw [if_pos hcap]
    exact hbandwidth
  | up hc' _ hcap hup hbuffer hroom =>
    cases hc.symm.trans hc'
    rw [if_neg fun h => hcap ⟨h, overCap_other hindices hc h⟩, if_pos hup,
      if_pos ⟨hbuffer, hroom⟩]
    exact hbandwidth
  | held hc' _ hcap hup hno =>
    cases hc.symm.trans hc'
    rw [if_neg fun h => hcap ⟨h, overCap_other hindices hc h⟩, if_pos hup, if_neg hno]
    rfl
  | down hc' _ hcap hdown _ hwhy =>
    cases hc.symm.trans hc'
    rw [if_neg fun h => hcap ⟨h, overCap_other hindices hc h⟩, if_neg hdown.asymm,
      if_pos ⟨hdown, hwhy⟩]
    exact hbandwidth
  | optimal hc' _ hcap hle hno =>
    cases hc.symm.trans hc'
    rw [if_neg fun h => hcap ⟨h, overCap_other hindices hc h⟩, if_neg (not_lt.mpr hle),
      if_neg fun h => hno h.1 h.2]
    rfl

theorem settled_mono_iff {c₁ c₂ : VariantIndex × ℕ} (hle : e₁ ≤ e₂)
    (h₁ : candidateVariant (s.candidates view) (view.adjusted e₁) = some c₁)
    (h₂ : candidateVariant (s.candidates view) (view.adjusted e₂) = some c₂) :
    settled s view e₁ c₁ ≤ settled s view e₂ c₂ ↔ ¬ Overshoots s view e₁ e₂ := by
  have hadjusted : view.adjusted e₁ ≤ view.adjusted e₂ := adjustedThroughput_mono hle _
  have hmono := candidateVariant_mono (candidates_sorted s view) hadjusted h₁ h₂
  have honly₁ : ∀ c, Rises s view e₁ c → c = c₁ := fun c hc =>
    Option.some_inj.mp (hc.candidate.symm.trans h₁)
  unfold settled
  dsimp only
  by_cases hcap : s.overCap view = true
  · rw [if_pos hcap, if_pos hcap]
    refine iff_of_true hmono ?_
    rintro ⟨⟨c, hrises⟩, -⟩
    rw [hrises.within] at hcap
    cases hcap
  · rw [if_neg hcap, if_neg hcap]
    by_cases hup : currentBandwidth view.variants s.currentVariant < c₁.2
    · have hup₂ := hup.trans_le hmono
      rw [if_pos hup, if_pos hup₂]
      by_cases hok : view.upBuffer = true ∧
          c₁.2 * view.settings.upHysteresisRatio ≤ view.adjusted e₁
      · rw [if_pos hok]
        have hrises : Rises s view e₁ c₁ :=
          ⟨h₁, by simpa using hcap, hup, hok.1, hok.2⟩
        by_cases hroom : c₂.2 * view.settings.upHysteresisRatio ≤ view.adjusted e₂
        · rw [if_pos ⟨hok.1, hroom⟩]
          refine iff_of_true hmono ?_
          rintro ⟨-, c, hc, hmiss⟩
          cases h₂.symm.trans hc
          exact absurd hroom (not_le.mpr hmiss)
        · rw [if_neg fun h => hroom h.2]
          refine iff_of_false (not_le.mpr hup) (not_not.mpr ?_)
          exact ⟨⟨c₁, hrises⟩, c₂, h₂, not_le.mp hroom⟩
      · rw [if_neg hok]
        refine iff_of_true ?_ ?_
        · split
          · exact hup₂.le
          · exact le_rfl
        · rintro ⟨⟨c, hrises⟩, -⟩
          cases honly₁ c hrises
          exact hok ⟨hrises.buffer, hrises.headroom⟩
    · rw [if_neg hup]
      have hstill : ¬ Overshoots s view e₁ e₂ := by
        rintro ⟨⟨c, hrises⟩, -⟩
        cases honly₁ c hrises
        exact hup hrises.higher
      refine iff_of_true ?_ hstill
      have hbelow : (if c₁.2 < currentBandwidth view.variants s.currentVariant ∧
          (view.urgent = true ∨ view.adjusted e₁ ≤
            currentBandwidth view.variants s.currentVariant * view.settings.downHysteresisRatio)
          then c₁.2 else currentBandwidth view.variants s.currentVariant) ≤
          currentBandwidth view.variants s.currentVariant := by
        split
        · next h => exact h.1.le
        · exact le_rfl
      by_cases hup₂ : currentBandwidth view.variants s.currentVariant < c₂.2
      · rw [if_pos hup₂]
        refine hbelow.trans ?_
        split
        · exact hup₂.le
        · exact le_rfl
      · rw [if_neg hup₂]
        by_cases hdown : c₂.2 < currentBandwidth view.variants s.currentVariant ∧
            (view.urgent = true ∨ view.adjusted e₂ ≤
              currentBandwidth view.variants s.currentVariant * view.settings.downHysteresisRatio)
        · -- what drives the higher estimate down drives the lower one too
          have hdown₁ := hdown.2.imp id hadjusted.trans
          rw [if_pos hdown, if_pos ⟨hmono.trans_lt hdown.1, hdown₁⟩]
          exact hmono
        · rw [if_neg hdown]
          exact hbelow

theorem bare_stays (hempty : s.candidates view = []) (e : ℕ) :
    s.decideBandwidth view e = .stay s.currentVariant .alreadyOptimal := by
  have hdecides := decideBandwidth_decides s view e
  generalize s.decideBandwidth view e = d at hdecides
  have hnone : ∀ c, candidateVariant (s.candidates view) (view.adjusted e) ≠ some c := by
    intro c hc
    rw [hempty] at hc
    cases hc
  cases hdecides with
  | bare _ => rfl
  | escape hc _ | capped hc _ _ _ | up hc _ _ _ _ _ | held hc _ _ _ _ | down hc _ _ _ _ _
  | optimal hc _ _ _ _ => exact absurd hc (hnone _)

theorem bandwidth_mono_iff (hindices : (view.variants.map VariantInfo.variantIndex).Nodup)
    (hfree : s.escaping = false) (hle : e₁ ≤ e₂) :
    leftOn view (s.decideBandwidth view e₁) ≤ leftOn view (s.decideBandwidth view e₂) ↔
      ¬ Overshoots s view e₁ e₂ := by
  cases h₁ : candidateVariant (s.candidates view) (view.adjusted e₁) with
  | none =>
    have hempty := candidateVariant_none h₁
    rw [bare_stays hempty, bare_stays hempty]
    refine iff_of_true le_rfl ?_
    rintro ⟨⟨c, hrises⟩, -⟩
    cases h₁.symm.trans hrises.candidate
  | some c₁ =>
    cases h₂ : candidateVariant (s.candidates view) (view.adjusted e₂) with
    | none =>
      rw [candidateVariant_none h₂] at h₁
      cases h₁
    | some c₂ =>
      rw [leftOn_settled hindices hfree h₁, leftOn_settled hindices hfree h₂]
      exact settled_mono_iff hle h₁ h₂

/-- The bandwidth settled on while the interval runs: only an urgent rescue leaves the current. -/
def rescued (s : AbrState) (view : AbrView) (c : VariantIndex × ℕ) : ℕ :=
  if s.overCap view = false ∧ c.2 < currentBandwidth view.variants s.currentVariant ∧
    view.urgent = true then c.2
  else currentBandwidth view.variants s.currentVariant

theorem decide_with {v : Option VariantIndex} (hauto : s.mode = .auto v)
    (hunlocked : s.isLocked = false) (now e : ℕ) : s.decide (view.with e) now =
      if (s.decideBandwidth view e).changed = false ∨
          isRescue (s.decideBandwidth view e).reason = true ∨
          s.canSwitchNow now view.settings.minSwitchInterval = true then s.decideBandwidth view e
      else .stay s.currentVariant .minInterval := by
  have hunheld : s.decideUnheld (view.with e) = s.decideBandwidth view e := by
    unfold AbrState.decideUnheld
    rw [hauto, hunlocked]
    rfl
  rw [decide_auto now hauto, hunheld]
  rfl

theorem leftOn_stay (view : AbrView) (current : VariantIndex) (p : Prop) [Decidable p]
    (reason : AbrReason) :
    leftOn view (if p then .stay current reason else .stay current .minInterval) =
      currentBandwidth view.variants current := by
  split
  · rfl
  · rfl

theorem leftOn_rescued (hindices : (view.variants.map VariantInfo.variantIndex).Nodup)
    (hfree : s.escaping = false) {c : VariantIndex × ℕ}
    (hc : candidateVariant (s.candidates view) (view.adjusted e) = some c) :
    leftOn view (if (s.decideBandwidth view e).changed = false ∨
        isRescue (s.decideBandwidth view e).reason = true ∨ false = true
      then s.decideBandwidth view e else .stay s.currentVariant .minInterval) =
      rescued s view c := by
  have hbandwidth := candidate_bandwidth hindices hc
  have hdecides := decideBandwidth_decides s view e
  generalize s.decideBandwidth view e = d at hdecides
  unfold rescued
  cases hdecides with
  | bare hempty =>
    rw [hempty] at hc
    cases hc
  | escape _ h =>
    rw [hfree] at h
    cases h
  | capped hc' _ hcap _ =>
    rw [if_neg (by simp [AbrDecision.changed, AbrDecision.reason, isRescue]),
      if_neg fun h => absurd (h.1.symm.trans hcap) Bool.false_ne_true]
    rfl
  | up hc' _ _ hup _ _ =>
    cases hc.symm.trans hc'
    rw [if_neg (by simp [AbrDecision.changed, AbrDecision.reason, isRescue]),
      if_neg fun h => absurd h.2.1 hup.asymm]
    rfl
  | held hc' _ _ hup _ =>
    cases hc.symm.trans hc'
    rw [leftOn_stay, if_neg fun h => absurd h.2.1 hup.asymm]
  | @down _ reason hc' _ hcap hdown hreason _ =>
    cases hc.symm.trans hc'
    have hwithin : s.overCap view = false := by
      cases hover : s.overCap view with
      | true => exact absurd ⟨hover, overCap_other hindices hc hover⟩ hcap
      | false => rfl
    cases hurgent : view.urgent with
    | true =>
      rw [hurgent, if_pos rfl] at hreason
      have hrescue :
          isRescue (AbrDecision.downSwitch s.currentVariant c.1 reason).reason = true := by
        rw [hreason]
        rfl
      rw [if_pos (Or.inr (Or.inl hrescue)), if_pos ⟨hwithin, hdown, rfl⟩]
      exact hbandwidth
    | false =>
      rw [hurgent, if_neg Bool.false_ne_true] at hreason
      rw [hreason, if_neg (by simp [AbrDecision.changed, AbrDecision.reason, isRescue]),
        if_neg fun h => absurd h.2.2 Bool.false_ne_true]
      rfl
  | optimal hc' _ _ _ hno =>
    cases hc.symm.trans hc'
    rw [leftOn_stay, if_neg fun h => hno h.2.1 (Or.inl h.2.2)]

theorem rescued_mono {c₁ c₂ : VariantIndex × ℕ} (hle : c₁.2 ≤ c₂.2) :
    rescued s view c₁ ≤ rescued s view c₂ := by
  unfold rescued
  by_cases hdown : s.overCap view = false ∧
      c₂.2 < currentBandwidth view.variants s.currentVariant ∧ view.urgent = true
  · rw [if_pos hdown, if_pos ⟨hdown.1, hle.trans_lt hdown.2.1, hdown.2.2⟩]
    exact hle
  · rw [if_neg hdown]
    split
    · next h => exact h.2.1.le
    · exact le_rfl

/-- For an automatic, unlocked state that does not escape, any caps and buffer, and variants of
distinct indices: the higher of two estimates leaves the player on no lower bandwidth, unless the
interval lets both act, the lower estimate switches up, and the higher one selects a candidate
that it has no headroom for. -/
theorem decision_mono_iff (s : AbrState) (view : AbrView) (now : ℕ) (v : Option VariantIndex)
    (hauto : s.mode = .auto v) (hunlocked : s.isLocked = false) (hfree : s.escaping = false)
    (hindices : (view.variants.map VariantInfo.variantIndex).Nodup) (e₁ e₂ : ℕ) (hle : e₁ ≤ e₂) :
    leftOn view (s.decide (view.with e₁) now) ≤ leftOn view (s.decide (view.with e₂) now) ↔
      ¬ (s.canSwitchNow now view.settings.minSwitchInterval = true ∧ Overshoots s view e₁ e₂) := by
  rw [decide_with hauto hunlocked, decide_with hauto hunlocked]
  cases hready : s.canSwitchNow now view.settings.minSwitchInterval with
  | true =>
    rw [if_pos (Or.inr (Or.inr rfl)), if_pos (Or.inr (Or.inr rfl)),
      bandwidth_mono_iff hindices hfree hle]
    simp
  | false =>
    refine iff_of_true ?_ fun h => Bool.false_ne_true h.1
    cases h₁ : candidateVariant (s.candidates view) (view.adjusted e₁) with
    | none =>
      have hempty := candidateVariant_none h₁
      rw [bare_stays hempty, bare_stays hempty]
    | some c₁ =>
      cases h₂ : candidateVariant (s.candidates view) (view.adjusted e₂) with
      | none =>
        rw [candidateVariant_none h₂] at h₁
        cases h₁
      | some c₂ =>
        rw [leftOn_rescued hindices hfree h₁, leftOn_rescued hindices hfree h₂]
        exact rescued_mono (candidateVariant_mono (candidates_sorted s view)
          (adjustedThroughput_mono hle _) h₁ h₂)

def ladderState : AbrState := AbrState.newAt (.auto (some 0)) 0

def ladderView : AbrView where
  settings :=
    { minBufferForUpSwitch := 0
      minSwitchInterval := 0
      urgentDownswitchBuffer := 0
      maxBandwidthBps := none
      downHysteresisRatio := 4 / 5
      throughputSafetyFactor := 1
      upHysteresisRatio := 13 / 10 }
  variants := [⟨some 100, 0⟩, ⟨some 200, 1⟩, ⟨some 300, 2⟩]
  bufferAhead := none
  estimateBps := none

theorem decision_mono_iff_ladder :
    leftOn ladderView (ladderState.decide (ladderView.with 120) 0) ≤
        leftOn ladderView (ladderState.decide (ladderView.with 280) 0) ↔
      ¬ (ladderState.canSwitchNow 0 ladderView.settings.minSwitchInterval = true ∧
        Overshoots ladderState ladderView 120 280) :=
  decision_mono_iff ladderState ladderView 0 (some 0) (by decide) (by decide) rfl (by decide) 120
    280 (by decide)

/-- At 280 the player goes up to 200; at 310 it selects 300, misses the headroom and stays. -/
theorem faster_link_stays_lower :
    ladderState.mode = .auto (some 0) ∧ ladderState.isLocked = false ∧
      ladderState.escaping = false ∧ 1 ≤ ladderView.settings.upHysteresisRatio ∧
      leftOn ladderView (ladderState.decide (ladderView.with 280) 0) = 200 ∧
      leftOn ladderView (ladderState.decide (ladderView.with 310) 0) = 100 := by
  decide +kernel

end Abr

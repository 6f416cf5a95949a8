import Kithara.SpanInvariant

/-! Source positions as durations: a shift-and-subtract long division for the nanoseconds of a
fraction of a frame, whose product would not fit 128 bits, and the floors it combines with.
Every word operation is checked, so an answer is also the absence of overflow. -/
namespace SpanClock

open CheckedArithmetic SpanRatio SpanMapping SpanGeometry SpanInvariant

def nanosPerSecond : ℕ := 1000000000

def tryFrom (bits n : ℕ) : Option ℕ := if n < 2 ^ bits then some n else none

theorem tryFrom_of_lt {bits n : ℕ} (h : n < 2 ^ bits) : tryFrom bits n = some n := if_pos h

/-- What a doubling or an addition modulo the denominator leaves, and its carry. -/
def carried (remainder complement grown : ℕ) : Option (ℕ × ℕ) :=
  if remainder ≥ complement then (checkedSub remainder complement).map (·, 1)
  else (tryFrom 128 grown).map (·, 0)

/-- One bit of the multiplier: double the remainder, add the numerator if the bit is set. -/
def nanosStep (numerator denominator bit : ℕ) (state : ℕ × ℕ) : Option (ℕ × ℕ) := do
  let complement ← checkedSub denominator state.1
  let doubled ← carried state.1 complement (state.1 + state.1)
  let added ←
    if nanosPerSecond &&& (1 <<< bit) ≠ 0 then do
      let complement ← checkedSub denominator numerator
      carried doubled.1 complement (doubled.1 + numerator)
    else some (doubled.1, 0)
  let carry ← checkedAdd 32 doubled.2 added.2
  let shifted ← checkedMul 32 state.2 2
  let nanos ← checkedAdd 32 shifted carry
  pure (added.1, nanos)

def nanosLoop (numerator denominator : ℕ) : ℕ → ℕ × ℕ → Option (ℕ × ℕ)
  | 0, state => some state
  | bit + 1, state => do nanosLoop numerator denominator bit (← nanosStep numerator denominator bit state)

def fractionalNanos (numerator denominator : ℕ) : Option ℕ :=
  (nanosLoop numerator denominator 32 (0, 0)).map Prod.snd

def positionAt {C : Type} [ExponentialApproach C] (s : SourceSpan C) (outputFrame : ℕ) :
    Option (ℕ × ℕ) := do
  let r ← s.sourceRatioAt outputFrame
  let frames := r.numerator / r.denominator
  let rate : ℕ := s.sampleRate
  let seconds ← tryFrom 64 (frames / rate)
  let fraction ← fractionalNanos (r.numerator % r.denominator) r.denominator
  let product ← checkedMul 128 (frames % rate) nanosPerSecond
  let sum ← checkedAdd 128 product fraction
  let nanos ← tryFrom 32 (sum / rate)
  pure (seconds, nanos)

/-- The duration a position stands for, in nanoseconds. -/
def nanoseconds (position : ℕ × ℕ) : ℕ := position.1 * nanosPerSecond + position.2

section LongDivision

variable {n d : ℕ}

/-- After the bits from `bit` up, the quotient and remainder of the multiplier's upper part. -/
structure Divides (n d bit : ℕ) (state : ℕ × ℕ) : Prop where
  quotient : state.2 * d + state.1 = nanosPerSecond / 2 ^ bit * n
  remainder : state.1 < d

theorem Divides.small {bit : ℕ} {state : ℕ × ℕ} (h : Divides n d bit state) (hn : n < d) :
    state.2 ≤ nanosPerSecond / 2 ^ bit := by
  by_contra hgt
  have hlow : (nanosPerSecond / 2 ^ bit + 1) * d ≤ state.2 * d := Nat.mul_le_mul_right d (by omega)
  have hhigh : nanosPerSecond / 2 ^ bit * n ≤ nanosPerSecond / 2 ^ bit * d :=
    Nat.mul_le_mul_left _ hn.le
  have := h.quotient
  rw [Nat.add_mul, Nat.one_mul] at hlow
  omega

theorem carried_eq (grown complement : ℕ) {r : ℕ} (hd : d < 2 ^ 128) (hr : r < d)
    (hgrown : grown + complement = r + d) :
    ∃ r' c, carried r complement grown = some (r', c) ∧ c ≤ 1 ∧ c * d + r' = grown ∧ r' < d := by
  unfold carried
  by_cases hge : r ≥ complement
  · refine ⟨r - complement, 1, ?_, le_rfl, by omega, by omega⟩
    rw [if_pos hge, checkedSub, if_pos hge]
    rfl
  · refine ⟨grown, 0, ?_, by omega, by omega, by omega⟩
    rw [if_neg hge, tryFrom, if_pos (by omega)]
    rfl

theorem upper_part (bit : ℕ) : nanosPerSecond / 2 ^ bit = 2 * (nanosPerSecond / 2 ^ (bit + 1)) +
    (if nanosPerSecond &&& (1 <<< bit) ≠ 0 then 1 else 0) := by
  have hhalf : nanosPerSecond / 2 ^ (bit + 1) = nanosPerSecond / 2 ^ bit / 2 := by
    rw [pow_succ, Nat.div_div_eq_div_mul]
  have hbit : (nanosPerSecond &&& (1 <<< bit) ≠ 0) ↔ nanosPerSecond / 2 ^ bit % 2 = 1 := by
    rw [Nat.one_shiftLeft]
    have htest := Nat.testBit_eq_decide_div_mod_eq (x := nanosPerSecond) (i := bit)
    constructor
    · intro hne
      by_contra hzero
      refine hne (Nat.eq_of_testBit_eq fun i => ?_)
      rw [Nat.testBit_and, Nat.testBit_two_pow, Nat.zero_testBit]
      by_cases hi : bit = i
      · subst hi
        rw [htest, decide_eq_false hzero, Bool.false_and]
      · rw [decide_eq_false hi, Bool.and_false]
    · intro hone hzero
      have hbits := congrArg (fun x => Nat.testBit x bit) hzero
      simp only [Nat.testBit_and, Nat.testBit_two_pow, Nat.zero_testBit, htest, hone,
        decide_true, Bool.and_self] at hbits
      cases hbits
  rw [hhalf]
  split
  · next h =>
    have := hbit.mp h
    omega
  · next h =>
    have := mt hbit.mpr h
    omega

theorem nanosStep_divides (hd : d < 2 ^ 128) (hn : n < d) {bit : ℕ} {state : ℕ × ℕ}
    (h : Divides n d (bit + 1) state) :
    ∃ next, nanosStep n d bit state = some next ∧ Divides n d bit next := by
  have hr := h.remainder
  have hupper := upper_part bit
  have hsmall : nanosPerSecond / 2 ^ bit ≤ nanosPerSecond := Nat.div_le_self _ _
  have hcomplement : checkedSub d state.1 = some (d - state.1) := if_pos hr.le
  obtain ⟨doubled, c, hdouble, hc, hdoubled, hdlt⟩ :=
    carried_eq (state.1 + state.1) (d - state.1) hd hr (by omega)
  have hq : (2 * state.2 + c) * d + doubled = 2 * (nanosPerSecond / 2 ^ (bit + 1)) * n := by
    calc (2 * state.2 + c) * d + doubled = 2 * (state.2 * d) + (c * d + doubled) := by ring
      _ = 2 * (state.2 * d + state.1) := by rw [hdoubled]; ring
      _ = 2 * (nanosPerSecond / 2 ^ (bit + 1)) * n := by rw [h.quotient]; ring
  have hfinish : ∀ added e, e ≤ 1 →
      (2 * state.2 + (c + e)) * d + added = nanosPerSecond / 2 ^ bit * n → added < d →
      Divides n d bit (added, state.2 * 2 + (c + e)) ∧ checkedAdd 32 c e = some (c + e) ∧
        checkedMul 32 state.2 2 = some (state.2 * 2) ∧
        checkedAdd 32 (state.2 * 2) (c + e) = some (state.2 * 2 + (c + e)) := by
    intro added e he hsum hlt
    have hdiv : Divides n d bit (added, state.2 * 2 + (c + e)) := by
      refine ⟨?_, hlt⟩
      rw [← hsum, Nat.mul_comm state.2 2]
    have hbound := hdiv.small hn
    have hlimit : nanosPerSecond = 1000000000 := rfl
    dsimp only at hbound
    refine ⟨hdiv, if_pos (by omega), if_pos (by omega), if_pos (by omega)⟩
  unfold nanosStep
  by_cases hset : nanosPerSecond &&& (1 <<< bit) ≠ 0
  · rw [if_pos hset] at hupper
    have hnumerator : checkedSub d n = some (d - n) := if_pos hn.le
    obtain ⟨added, e, hadd, he, hadded, halt⟩ :=
      carried_eq (doubled + n) (d - n) hd hdlt (by omega)
    obtain ⟨hdiv, h1, h2, h3⟩ := hfinish added e he (by
      calc (2 * state.2 + (c + e)) * d + added
          = (2 * state.2 + c) * d + (e * d + added) := by ring
        _ = ((2 * state.2 + c) * d + doubled) + n := by rw [hadded]; ring
        _ = nanosPerSecond / 2 ^ bit * n := by rw [hq, hupper]; ring) halt
    refine ⟨_, ?_, hdiv⟩
    simp only [hcomplement, hdouble, if_pos hset, hnumerator, hadd, h1, h2, h3,
      Option.bind_eq_bind, Option.bind_some]
    rfl
  · rw [if_neg hset, Nat.add_zero] at hupper
    obtain ⟨hdiv, h1, h2, h3⟩ := hfinish doubled 0 (by omega) (by
      rw [Nat.add_zero, hq, hupper]) hdlt
    refine ⟨_, ?_, hdiv⟩
    simp only [hcomplement, hdouble, if_neg hset, h1, h2, h3, Option.bind_eq_bind,
      Option.bind_some]
    rfl

theorem nanosLoop_divides (hd : d < 2 ^ 128) (hn : n < d) {bits : ℕ} {state : ℕ × ℕ}
    (h : Divides n d bits state) :
    ∃ last, nanosLoop n d bits state = some last ∧ Divides n d 0 last := by
  induction bits generalizing state with
  | zero => exact ⟨state, rfl, h⟩
  | succ bit ih =>
    obtain ⟨next, hstep, hnext⟩ := nanosStep_divides hd hn h
    obtain ⟨last, hloop, hlast⟩ := ih hnext
    refine ⟨last, ?_, hlast⟩
    rw [nanosLoop, hstep]
    exact hloop

theorem fractionalNanos_eq (hd : d < 2 ^ 128) (hn : n < d) :
    fractionalNanos n d = some (nanosPerSecond * n / d) := by
  have hstart : Divides n d 32 (0, 0) := by
    have hzero : nanosPerSecond / 2 ^ 32 = 0 := by decide
    refine ⟨?_, by omega⟩
    rw [hzero, Nat.zero_mul, Nat.zero_mul]
    rfl
  obtain ⟨last, hloop, hlast⟩ := nanosLoop_divides hd hn hstart
  have hq := hlast.quotient
  rw [pow_zero, Nat.div_one] at hq
  rw [fractionalNanos, hloop, Option.map_some, ← hq, Nat.add_comm,
    Nat.add_mul_div_right _ _ (by omega), Nat.div_eq_of_lt hlast.remainder, Nat.zero_add]

end LongDivision

theorem floors_nest (k p d rate : ℕ) (hd : 0 < d) (hrate : 0 < rate) :
    p / d / rate * k + (p / d % rate * k + k * (p % d) / d) / rate = k * p / (d * rate) := by
  have hframe : k * p / d = p / d * k + k * (p % d) / d := by
    conv_lhs => rw [← Nat.div_add_mod p d, Nat.mul_add, ← Nat.mul_assoc, Nat.mul_comm k d,
      Nat.mul_assoc, Nat.add_comm, Nat.add_mul_div_left _ _ hd, Nat.add_comm, Nat.mul_comm k]
  have hsecond : p / d * k = rate * (p / d / rate * k) + p / d % rate * k := by
    conv_lhs => rw [← Nat.div_add_mod (p / d) rate, Nat.add_mul, Nat.mul_assoc]
  rw [← Nat.div_div_eq_div_mul, hframe, hsecond, Nat.add_assoc, Nat.add_comm (rate * _),
    Nat.add_mul_div_left _ _ hrate, Nat.add_comm]

variable {C : Type} [ExponentialApproach C] {s : SourceSpan C} {m : Rational}

theorem ratio_denominator_le {f : ℕ} {r : Ratio} (hm : s.mapping = .rational m)
    (hr : s.sourceRatioAt f = some r) : (r.denominator : ℕ) ≤ m.denominator := by
  unfold SourceSpan.sourceRatioAt at hr
  split at hr
  · contradiction
  · rw [hm] at hr
    simp only [Mapping.ratioAt, Option.bind_eq_bind, Option.bind_eq_some_iff] at hr
    obtain ⟨n, _, hnew⟩ := hr
    obtain ⟨r', hr', _, hden⟩ := new_eq n m.denominator
    obtain rfl : r' = r := Option.some.inj (hr'.symm.trans hnew)
    rw [hden]
    exact Nat.div_le_self _ _

theorem floor_scaled (r : Ratio) (rate : ℕ+) (k : ℕ) :
    ⌊r.toRat * k / (rate : ℕ)⌋₊ = k * r.numerator / (r.denominator * rate) := by
  have hvalue : r.toRat * k / (rate : ℕ) =
      ((k * r.numerator : ℕ) : ℚ) / ((r.denominator * rate : ℕ) : ℚ) := by
    have hd := pnat_ne_zero r.denominator
    have hrate := pnat_ne_zero rate
    rw [Ratio.toRat]
    push_cast
    field_simp
  rw [hvalue, Nat.floor_div_eq_div]

theorem subsecond_parts {k q x rate : ℕ} (hrate : 0 < rate) (hlimit : rate < 2 ^ 32)
    (hk : k < 2 ^ 32) (hx : x < k) :
    q % rate * k < 2 ^ 128 ∧ q % rate * k + x < 2 ^ 128 ∧ (q % rate * k + x) / rate < k := by
  have hmod : q % rate < rate := Nat.mod_lt _ hrate
  have hproduct : q % rate * k ≤ (rate - 1) * k := Nat.mul_le_mul_right _ (by omega)
  have hspread : (rate - 1) * k + k = k * rate := by
    rw [Nat.sub_mul, Nat.one_mul, Nat.sub_add_cancel (Nat.le_mul_of_pos_left _ hrate), Nat.mul_comm]
  have hwide : k * rate ≤ 2 ^ 32 * 2 ^ 32 := Nat.mul_le_mul hk.le hlimit.le
  refine ⟨by omega, by omega, ?_⟩
  refine (Nat.div_lt_iff_lt_mul hrate).mpr ?_
  omega

theorem positionAt_floor {f : ℕ} {r : Ratio} (hden : (r.denominator : ℕ) < 2 ^ 128)
    (hrate : (s.sampleRate : ℕ) < 2 ^ 32) (hr : s.sourceRatioAt f = some r)
    (hfits : r.numerator / r.denominator / s.sampleRate < 2 ^ 64) :
    ∃ position, positionAt s f = some position ∧ position.2 < nanosPerSecond ∧
      nanoseconds position = ⌊r.toRat * nanosPerSecond / (s.sampleRate : ℕ)⌋₊ := by
  have hpos : 0 < (s.sampleRate : ℕ) := s.sampleRate.pos
  have hk : nanosPerSecond < 2 ^ 32 := by norm_num [nanosPerSecond]
  have hsecond : 0 < nanosPerSecond := by norm_num [nanosPerSecond]
  have hfraction := fractionalNanos_eq hden (Nat.mod_lt r.numerator r.denominator.pos)
  have hnest := floors_nest nanosPerSecond r.numerator r.denominator s.sampleRate
    r.denominator.pos hpos
  have hscaled := floor_scaled r s.sampleRate nanosPerSecond
  unfold positionAt nanoseconds
  generalize nanosPerSecond = k at hk hsecond hfraction hnest hscaled ⊢
  have hbelow : k * (r.numerator % r.denominator) / r.denominator < k := by
    refine (Nat.div_lt_iff_lt_mul r.denominator.pos).mpr ?_
    exact Nat.mul_lt_mul_of_pos_left (Nat.mod_lt _ r.denominator.pos) hsecond
  obtain ⟨hproduct, hsum, hnanos⟩ := subsecond_parts (q := r.numerator / r.denominator)
    hpos hrate hk hbelow
  refine ⟨(r.numerator / r.denominator / s.sampleRate,
    (r.numerator / r.denominator % s.sampleRate * k +
      k * (r.numerator % r.denominator) / r.denominator) / s.sampleRate), ?_, hnanos, ?_⟩
  · have h0 := tryFrom_of_lt hfits
    have h1 := checkedMul_eq_some.mpr ⟨rfl, hproduct⟩
    have h2 := checkedAdd_eq_some.mpr ⟨rfl, hsum⟩
    have h3 := tryFrom_of_lt (lt_trans hnanos hk)
    simp only [Option.bind_eq_bind, Option.bind_eq_some_iff]
    exact ⟨_, hr, _, h0, _, hfraction, _, h1, _, h2, _, h3, rfl⟩
  · rw [hscaled, ← hnest]

theorem positionAt_source {f : ℕ} {position : ℕ × ℕ} (h : positionAt s f = some position) :
    ∃ r, s.sourceRatioAt f = some r ∧ r.numerator / r.denominator / s.sampleRate < 2 ^ 64 := by
  simp only [positionAt, Option.bind_eq_bind, Option.bind_eq_some_iff] at h
  obtain ⟨r, hr, seconds, hseconds, _⟩ := h
  refine ⟨r, hr, ?_⟩
  by_contra hover
  rw [tryFrom, if_neg hover] at hseconds
  cases hseconds

theorem floor_seconds (r : Ratio) (rate : ℕ+) :
    ⌊r.toRat / (rate : ℕ)⌋₊ = r.numerator / r.denominator / rate := by
  have h := floor_scaled r rate 1
  rw [Nat.cast_one, mul_one, Nat.one_mul, ← Nat.div_div_eq_div_mul] at h
  exact h

/-- The division of nanoseconds is exact at full width; the position of every frame whose seconds
fit is the floor of its source time in nanoseconds, the subsecond part below a second; and no
later frame of a validated span has an earlier position. -/
theorem positions_exact :
    (∀ n d, n < d → d < 2 ^ 128 → fractionalNanos n d = some (nanosPerSecond * n / d)) ∧
    (∀ (s : SourceSpan C) (m : Rational) (f : ℕ) (r : Ratio), s.mapping = .rational m →
      (m.denominator : ℕ) < 2 ^ 128 → (s.sampleRate : ℕ) < 2 ^ 32 → s.sourceRatioAt f = some r →
      ⌊r.toRat / (s.sampleRate : ℕ)⌋₊ ≤ 2 ^ 64 - 1 →
      ∃ position, positionAt s f = some position ∧ position.2 < nanosPerSecond ∧
        nanoseconds position = ⌊r.toRat * nanosPerSecond / (s.sampleRate : ℕ)⌋₊) ∧
    (∀ (s : SourceSpan C) (m : Rational) (f g : ℕ) (p q : ℕ × ℕ), Validated s →
      s.mapping = .rational m → (s.sampleRate : ℕ) < 2 ^ 32 → f ≤ g → positionAt s f = some p →
      positionAt s g = some q → nanoseconds p ≤ nanoseconds q) := by
  refine ⟨fun n d hn hd => fractionalNanos_eq hd hn, ?_, ?_⟩
  · intro s m f r hm hden hrate hr hfits
    rw [floor_seconds] at hfits
    exact positionAt_floor (lt_of_le_of_lt (ratio_denominator_le hm hr) hden) hrate hr (by omega)
  · intro s m f g p q hs hm hrate hfg hp hq
    have hwide := hs.wide
    rw [hm] at hwide
    obtain ⟨r, hr, hrfits⟩ := positionAt_source hp
    obtain ⟨t, ht, htfits⟩ := positionAt_source hq
    obtain ⟨p', hp', _, hpv⟩ := positionAt_floor
      (lt_of_le_of_lt (ratio_denominator_le hm hr) hwide.denominator) hrate hr hrfits
    obtain ⟨q', hq', _, hqv⟩ := positionAt_floor
      (lt_of_le_of_lt (ratio_denominator_le hm ht) hwide.denominator) hrate ht htfits
    obtain rfl : p' = p := Option.some.inj (hp'.symm.trans hp)
    obtain rfl : q' = q := Option.some.inj (hq'.symm.trans hq)
    rw [hpv, hqv]
    refine Nat.floor_le_floor ?_
    have hle := sourceRatioAt_le hs hm hfg hr ht
    gcongr

theorem positions_exact_slowing :
    ∃ position, positionAt slowingSpan 3 = some position ∧ position.2 < nanosPerSecond := by
  have hv := reachable_validated slowing_reachable
  obtain ⟨r, hr, _⟩ := sourceRatioAt_position (f := 3) hv rfl (by decide)
  obtain ⟨frame, hframe⟩ := sourceFrame_isSome hv rfl hr
  have hfits : ⌊r.toRat / (slowingSpan.sampleRate : ℕ)⌋₊ ≤ 2 ^ 64 - 1 := by
    rw [floor_seconds, (sourceFrame_eq_some.mp hframe).1]
    have hlt := (sourceFrame_eq_some.mp hframe).2
    have hle := Nat.div_le_self frame (slowingSpan.sampleRate : ℕ)
    omega
  obtain ⟨position, hp, hlt, _⟩ := (positions_exact (C := SteadyRate)).2.1 slowingSpan slowing 3
    r rfl (by decide) (by decide) hr hfits
  exact ⟨position, hp, hlt⟩

end SpanClock

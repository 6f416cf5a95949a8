import Kithara.SpanRatio

/-! Positive affine maps between exact coordinates, with signed offsets.
`Affine.eval` is the exact map; applying, chaining and building one from a pivot agree with it. -/
namespace SpanAffine

open CheckedArithmetic SpanRatio

inductive Offset where
  | add (offset : Ratio)
  | subtract (offset : Ratio)
  deriving DecidableEq, Repr

namespace Offset

def difference (first second : Ratio) : Option Offset := do
  let denominator ← Ratio.common first.denominator second.denominator
  let left ← first.atDenominator denominator
  let right ← second.atDenominator denominator
  if left ≥ right then
    return .add (← Ratio.new (left - right) denominator)
  else
    return .subtract (← Ratio.new (right - left) denominator)

def scaled (offset : Offset) (scale : Ratio) : Option Offset :=
  match offset with
  | .add value => (value.mul scale).map .add
  | .subtract value => (value.mul scale).map .subtract

def plus (first second : Offset) : Option Offset :=
  match first, second with
  | .add a, .add b => (a.add b).map .add
  | .subtract a, .subtract b => (a.add b).map .subtract
  | .add a, .subtract b => difference a b
  | .subtract a, .add b => difference b a

def apply (offset : Offset) (value : Ratio) : Option Ratio :=
  match offset with
  | .add shift => value.add shift
  | .subtract shift => value.sub shift

/-- The signed amount an offset adds. -/
def toRat : Offset → ℚ
  | .add value => value.toRat
  | .subtract value => -value.toRat

end Offset

@[ext] structure Affine where
  scale : Ratio
  offset : Offset
  deriving DecidableEq, Repr

namespace Affine

def new (pivot position scale : Ratio) : Option Affine :=
  if scale.numerator = 0 then none
  else do
    let product ← pivot.mul scale
    let offset ← Offset.difference position product
    pure ⟨scale, offset⟩

def identity : Option Affine := do
  let scale ← Ratio.new 1 nonZeroMin
  let zero ← Ratio.new 0 nonZeroMin
  pure ⟨scale, .add zero⟩

def apply (affine : Affine) (value : Ratio) : Option Ratio := do
  let product ← value.mul affine.scale
  affine.offset.apply product

def scaleBy (affine : Affine) (value : Ratio) : Option Ratio := value.mul affine.scale

def andThen (affine next : Affine) : Option Affine := do
  let scale ← affine.scale.mul next.scale
  let scaled ← affine.offset.scaled next.scale
  let offset ← scaled.plus next.offset
  pure ⟨scale, offset⟩

def eval (affine : Affine) (x : ℚ) : ℚ := affine.scale.toRat * x + affine.offset.toRat

end Affine

theorem difference_toRat {a b : Ratio} {o : Offset} (h : Offset.difference a b = some o) :
    o.toRat = a.toRat - b.toRat := by
  simp only [Offset.difference, Option.bind_eq_bind, Option.bind_eq_some_iff] at h
  obtain ⟨d, hd, left, hl, right, hr, h⟩ := h
  obtain ⟨da, db⟩ := common_dvd hd
  rw [← atDenominator_div hl da, ← atDenominator_div hr db]
  split at h
  · next hge =>
    simp only [Option.bind_eq_some_iff, Option.pure_def, Option.some.injEq] at h
    obtain ⟨r, hr', rfl⟩ := h
    rw [Offset.toRat, new_toRat hr', Nat.cast_sub hge]
    ring
  · next hlt =>
    simp only [Option.bind_eq_some_iff, Option.pure_def, Option.some.injEq] at h
    obtain ⟨r, hr', rfl⟩ := h
    rw [Offset.toRat, new_toRat hr', Nat.cast_sub (by omega)]
    ring

theorem offset_apply_toRat {o : Offset} {v t : Ratio} (h : o.apply v = some t) :
    t.toRat = v.toRat + o.toRat := by
  cases o with
  | add s => exact add_toRat h
  | subtract s => rw [sub_toRat h, Offset.toRat, sub_eq_add_neg]

theorem apply_toRat {a : Affine} {v t : Ratio} (h : a.apply v = some t) :
    t.toRat = a.eval v.toRat := by
  simp only [Affine.apply, Option.bind_eq_bind, Option.bind_eq_some_iff] at h
  obtain ⟨p, hp, ho⟩ := h
  rw [offset_apply_toRat ho, mul_toRat hp, Affine.eval, mul_comm]

theorem scaleBy_toRat {a : Affine} {v t : Ratio} (h : a.scaleBy v = some t) :
    t.toRat = a.scale.toRat * v.toRat := by
  rw [mul_toRat h, mul_comm]

theorem new_eval {pivot position scale : Ratio} {a : Affine}
    (h : Affine.new pivot position scale = some a) (x : ℚ) :
    a.eval x = position.toRat + scale.toRat * (x - pivot.toRat) := by
  simp only [Affine.new] at h
  split at h
  · contradiction
  · simp only [Option.bind_eq_bind, Option.bind_eq_some_iff, Option.pure_def,
      Option.some.injEq] at h
    obtain ⟨p, hp, o, ho, rfl⟩ := h
    rw [Affine.eval, difference_toRat ho, mul_toRat hp]
    ring

end SpanAffine

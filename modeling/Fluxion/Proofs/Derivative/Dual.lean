import Mathlib.Data.Rat.Cast.Defs
import Mathlib.Tactic.FieldSimp
import Mathlib.Tactic.Ring
import Mathlib.Tactic.Simps.Basic
import Fluxion.Number.Binary64
import Fluxion.Proofs.Derivative.Slope

namespace Fluxion

/-- The rational number that a finite one is. -/
def Binary64.value (x : Float) : ℚ :=
  (if isNegative x then -1 else 1) * (units (size x) / 2 ^ 1074)

theorem Binary64.value_of_units {x : Float} {n : Nat} (hs : units (size x) = n * 2 ^ 1074) :
    value x = (if isNegative x then -1 else 1) * n := by
  have hone : (2 : ℚ) ^ 1074 ≠ 0 := pow_ne_zero _ two_ne_zero
  rw [value, hs, Nat.cast_mul, Nat.cast_pow, Nat.cast_ofNat, mul_div_cancel_right₀ _ hone]

@[simp] theorem Binary64.value_zero : value 0 = 0 := by
  have hs : units (size 0) = 0 * 2 ^ 1074 := by decide +kernel
  rw [value_of_units hs, Nat.cast_zero, mul_zero]

@[simp] theorem Binary64.value_one : value 1 = 1 := by
  have hs : units (size 1) = 1 * 2 ^ 1074 := by decide +kernel
  have hn : isNegative 1 = false := by decide +kernel
  simp [value_of_units hs, hn]

@[simp] theorem Binary64.value_two : value 2 = 2 := by
  have hs : units (size 2) = 2 * 2 ^ 1074 := by decide +kernel
  have hn : isNegative 2 = false := by decide +kernel
  simp [value_of_units hs, hn]

@[simp] theorem Binary64.value_neg_one : value (-1) = -1 := by
  have hs : units (size (-1)) = 1 * 2 ^ 1074 := by decide +kernel
  have hn : isNegative (-1) = true := by decide +kernel
  simp [value_of_units hs, hn]

namespace Arithmetic

variable {K : Type} [Field K] (exp ln sqrt : K → K)

/-- Exact arithmetic of a field, with any functions for the
exponential, the logarithm and the root. -/
@[simps]
def exact : Arithmetic K :=
  ⟨fun x => Binary64.value x, (· + ·), (· - ·), (· * ·), (· / ·), (- ·), exp, ln, sqrt⟩

/-- The same on dual numbers. -/
@[simps]
def dual : Arithmetic (Dual K) where
  constant x := ⟨Binary64.value x, 0⟩
  add a b := ⟨a.value + b.value, a.slope + b.slope⟩
  sub a b := ⟨a.value - b.value, a.slope - b.slope⟩
  mul a b := ⟨a.value * b.value, a.slope * b.value + a.value * b.slope⟩
  div a b := ⟨a.value / b.value, (a.slope * b.value - a.value * b.slope) / (b.value * b.value)⟩
  neg a := ⟨-a.value, -a.slope⟩
  exp a := ⟨exp a.value, exp a.value * a.slope⟩
  ln a := ⟨ln a.value, a.slope / a.value⟩
  sqrt a := ⟨sqrt a.value, a.slope / (2 * sqrt a.value)⟩

end Arithmetic

/-- A point that moves along one variable. -/
def Point.along [Zero K] [One K] (p : Point K) (name : String) : Point (Dual K) :=
  let seed (v : Variable) : Dual K := ⟨p.get v, if v.name = name then 1 else 0⟩
  ⟨seed .x, seed .y, seed .z⟩

theorem Point.get_along [Zero K] [One K] (p : Point K) (name : String) (v : Variable) :
    (p.along name).get v = ⟨p.get v, if v.name = name then 1 else 0⟩ := by
  cases v <;> rfl

section Field

variable {K : Type} [Field K] {exp ln sqrt : K → K} {p : Point K} {name : String}

namespace Arithmetic

/-- Dual numbers are the numbers of the field that move. -/
theorem moving_exact (exp ln sqrt : K → K) : (exact exp ln sqrt).moving = dual exp ln sqrt := by
  simp [moving, exact, dual, zero]

theorem quotient_rule (a b da db : K) :
    1 / b * da + -a / (b * b) * db = (da * b - a * db) / (b * b) := by
  by_cases hb : b = 0
  · simp [hb]
  · field_simp
    ring

/-- The laws hold in every field, also where a divisor is zero and every quotient by it is. -/
theorem exact_lawful (exp ln sqrt : K → K) : (exact exp ln sqrt).Lawful where
  zero_add a := by simp [zero]
  one_mul a := by simp
  neg_one_mul a := by simp
  add_neg a b := (sub_eq_add_neg a b).symm
  mul_comm := mul_comm
  double_mul a b := by
    simp
    ring
  zero_div a := by simp [zero]
  quotient a b da db := by
    simp only [exact_add, exact_sub, exact_mul, exact_div, exact_neg, exact_constant,
      Binary64.value_one, Rat.cast_one]
    exact quotient_rule a b da db

/-- A number of the field that does not move. -/
theorem exact_still (exp ln sqrt : K → K) :
    (exact exp ln sqrt).Hom (dual exp ln sqrt) fun a => ⟨a, 0⟩ := by
  constructor <;> intros <;> ext <;> simp

end Arithmetic

theorem Point.moving_exact (p : Point K) (name : String) :
    p.moving (.exact exp ln sqrt) name = p.along name := by
  simp [moving, along, Arithmetic.zero]

namespace Expr

theorem eval_differential (e : Expr) :
    (e.differential name).eval (.exact exp ln sqrt) p =
      (e.eval (.dual exp ln sqrt) (p.along name)).slope := by
  rw [eval_differential_of_lawful (Arithmetic.exact_lawful exp ln sqrt), Arithmetic.moving_exact,
    Point.moving_exact]

/-- A variable that is not there changes nothing. -/
theorem eval_along_slope_eq_zero {e : Expr}
    (he : ∀ v, Leaf.var v ∈ e.leaves → v.name ≠ name) :
    (e.eval (.dual exp ln sqrt) (p.along name)).slope = 0 := by
  have hstill : (⟨e.eval (.exact exp ln sqrt) p, 0⟩ : Dual K) =
      e.eval (.dual exp ln sqrt) (p.along name) :=
    eval_hom (Arithmetic.exact_still exp ln sqrt) fun v hv => by
      rw [Point.get_along, if_neg (he v hv)]
  rw [← hstill]

end Expr

end Field
end Fluxion

import Fluxion.Proofs.Derivative.Dual

namespace Fluxion

variable {K : Type} [Field K] {exp ln sqrt : K → K} {p : Point K}

/-- The same number with its two directions exchanged. -/
def Dual.swap (a : Dual (Dual K)) : Dual (Dual K) :=
  ⟨⟨a.value.value, a.slope.value⟩, ⟨a.value.slope, a.slope.slope⟩⟩

namespace Arithmetic

/-- Dual numbers obey the laws too. They have no inverses for all but zero, but every quotient by a
divisor with the value zero is zero. -/
theorem dual_lawful (exp ln sqrt : K → K) : (dual exp ln sqrt).Lawful where
  zero_add a := by ext <;> simp [zero]
  one_mul a := by ext <;> simp
  neg_one_mul a := by ext <;> simp
  add_neg a b := by ext <;> simp [sub_eq_add_neg]
  mul_comm a b := by ext <;> simp <;> ring
  double_mul a b := by ext <;> simp <;> ring
  zero_div a := by ext <;> simp [zero]
  quotient a b da db := by
    ext
    · simpa using quotient_rule a.value b.value da.value db.value
    · by_cases hb : b.value = 0
      · simp [hb]
      · simp
        field_simp
        ring

/-- Exchanging the directions goes through all operations. -/
theorem swap_hom (exp ln sqrt : K → K) :
    (dual exp ln sqrt).moving.Hom (dual exp ln sqrt).moving Dual.swap where
  constant x := by ext <;> simp [Dual.swap, zero]
  add a b := by ext <;> simp [Dual.swap]
  sub a b := by ext <;> simp [Dual.swap]
  mul a b := by
    ext <;> simp [Dual.swap]
    ring
  div a b := by
    ext <;> simp [Dual.swap]
    ring
  neg a := by ext <;> simp [Dual.swap]
  exp a := by
    ext <;> simp [Dual.swap]
    ring
  ln a := by
    ext <;> simp [Dual.swap]
    ring
  sqrt a := by
    ext <;> simp [Dual.swap]
    ring

end Arithmetic

/-- A point that moves along two variables, one after the other. -/
def Point.alongBoth (exp ln sqrt : K → K) (p : Point K) (first second : String) :
    Point (Dual (Dual K)) :=
  (p.along second).moving (.dual exp ln sqrt) first

theorem Point.swap_alongBoth (first second : String) (v : Variable) :
    ((p.alongBoth exp ln sqrt first second).get v).swap =
      (p.alongBoth exp ln sqrt second first).get v := by
  rw [alongBoth, alongBoth, get_moving, get_moving, get_along, get_along]
  split_ifs <;> ext <;> simp [Dual.swap, Arithmetic.zero]

namespace Expr

/-- A derivative of a derivative is worth the slope of the slope. -/
theorem eval_differential_differential (e : Expr) (first second : String) :
    ((e.differential first).differential second).eval (.exact exp ln sqrt) p =
      (e.eval (Arithmetic.dual exp ln sqrt).moving
        (p.alongBoth exp ln sqrt first second)).slope.slope := by
  rw [eval_differential, eval_differential_of_lawful (Arithmetic.dual_lawful exp ln sqrt)]
  rfl

theorem eval_differential_comm (e : Expr) (first second : String) :
    ((e.differential first).differential second).eval (.exact exp ln sqrt) p =
      ((e.differential second).differential first).eval (.exact exp ln sqrt) p := by
  have hswap :
      (e.eval (Arithmetic.dual exp ln sqrt).moving (p.alongBoth exp ln sqrt first second)).swap =
      e.eval (Arithmetic.dual exp ln sqrt).moving (p.alongBoth exp ln sqrt second first) :=
    eval_hom (Arithmetic.swap_hom exp ln sqrt) fun v _ => Point.swap_alongBoth first second v
  rw [eval_differential_differential, eval_differential_differential, ← hswap]
  rfl

end Expr
end Fluxion

import Mathlib.Data.List.Basic
import Mathlib.Tactic.Simps.Basic
import Fluxion.Proofs.Derivative.Reference

namespace Fluxion

variable {K L : Type}

namespace Arithmetic

/-- A function that takes the numbers and operations of one arithmetic to those of another. -/
structure Hom (A : Arithmetic K) (B : Arithmetic L) (f : K → L) : Prop where
  constant : ∀ x, f (A.constant x) = B.constant x
  add : ∀ a b, f (A.add a b) = B.add (f a) (f b)
  sub : ∀ a b, f (A.sub a b) = B.sub (f a) (f b)
  mul : ∀ a b, f (A.mul a b) = B.mul (f a) (f b)
  div : ∀ a b, f (A.div a b) = B.div (f a) (f b)
  neg : ∀ a, f (A.neg a) = B.neg (f a)
  exp : ∀ a, f (A.exp a) = B.exp (f a)
  ln : ∀ a, f (A.ln a) = B.ln (f a)
  sqrt : ∀ a, f (A.sqrt a) = B.sqrt (f a)

variable {A : Arithmetic K} {B : Arithmetic L} {f : K → L}

theorem Hom.sumOfSquares (h : Hom A B f) (as : List K) :
    f (A.sumOfSquares as) = B.sumOfSquares (as.map f) := by
  rw [Arithmetic.sumOfSquares, Arithmetic.sumOfSquares, List.foldl_map, zero, zero, ← h.constant]
  exact (List.foldl_hom f fun sum a => by rw [h.add, h.mul]).symm

theorem Hom.sumOfExponentials (h : Hom A B f) (as : List K) :
    f (A.sumOfExponentials as) = B.sumOfExponentials (as.map f) := by
  rw [Arithmetic.sumOfExponentials, Arithmetic.sumOfExponentials, List.foldl_map, zero, zero,
    ← h.constant]
  exact (List.foldl_hom f fun sum a => by rw [h.add, h.exp]).symm

theorem Hom.apply (h : Hom A B f) (q : Primitive) (as : List K) :
    f (q.apply A as) = q.apply B (as.map f) := by
  cases q with
  | sumsq => exact h.sumOfSquares as
  | sumexp => exact h.sumOfExponentials as
  | distance => exact (h.sqrt _).trans (congrArg B.sqrt (h.sumOfSquares as))
  | lse => exact (h.ln _).trans (congrArg B.ln (h.sumOfExponentials as))
  | add | subtract | multiply | divide | negate =>
    rcases as with _ | ⟨a, _ | ⟨b, _ | ⟨c, as⟩⟩⟩ <;>
      simp [Primitive.apply, zero, h.constant, h.add, h.sub, h.mul, h.div, h.neg]

end Arithmetic

namespace Expr

section Eval

variable (A : Arithmetic L) (q : Point L)

@[simp] theorem eval_constant (c : Float) : eval A q (constant c) = A.constant c := rfl

@[simp] theorem eval_var (v : Variable) : eval A q (.leaf (.var v)) = q.get v := rfl

@[simp] theorem eval_add (a b : Expr) : eval A q (.add a b) = A.add (eval A q a) (eval A q b) := rfl

@[simp] theorem eval_multiply (a b : Expr) :
    eval A q (.multiply a b) = A.mul (eval A q a) (eval A q b) := rfl

@[simp] theorem eval_divide (a b : Expr) :
    eval A q (.divide a b) = A.div (eval A q a) (eval A q b) := rfl

@[simp] theorem eval_negate (a : Expr) : eval A q (.negate a) = A.neg (eval A q a) := rfl

theorem eval_operation (op : Operator) (es : List Expr) :
    eval A q (.operation op es) = op.primitive.apply A (es.map (eval A q)) := Term.fold_operation ..

end Eval

/-- Evaluation commutes with a function between arithmetics that takes the variables of an
expression to what they are worth in the other one. -/
theorem eval_hom {A : Arithmetic K} {B : Arithmetic L} {f : K → L} (h : A.Hom B f) {p : Point K}
    {q : Point L} {e : Expr} (hpq : ∀ v, Leaf.var v ∈ e.leaves → f (p.get v) = q.get v) :
    f (e.eval A p) = e.eval B q := by
  induction e using Term.induct with
  | onLeaf l =>
    cases l with
    | constant c => exact h.constant c
    | var v => exact hpq v (by simp)
  | onOperation op es ih =>
    rw [eval_operation, eval_operation, h.apply, List.map_map]
    refine congrArg _ (List.map_congr_left fun e he => ih e he fun v hv => hpq v ?_)
    exact Term.mem_leaves_operand he hv

end Expr

/-- A number with its rate of change. -/
@[ext]
structure Dual (K : Type) where
  value : K
  slope : K

namespace Arithmetic

/-- The arithmetic of numbers that move. It is one like any other, so that derivatives of
derivatives are slopes of slopes. -/
@[simps]
def moving (A : Arithmetic K) : Arithmetic (Dual K) where
  constant x := ⟨A.constant x, A.zero⟩
  add a b := ⟨A.add a.value b.value, A.add a.slope b.slope⟩
  sub a b := ⟨A.sub a.value b.value, A.sub a.slope b.slope⟩
  mul a b := ⟨A.mul a.value b.value, A.add (A.mul a.slope b.value) (A.mul a.value b.slope)⟩
  div a b := ⟨A.div a.value b.value,
    A.div (A.sub (A.mul a.slope b.value) (A.mul a.value b.slope)) (A.mul b.value b.value)⟩
  neg a := ⟨A.neg a.value, A.neg a.slope⟩
  exp a := ⟨A.exp a.value, A.mul (A.exp a.value) a.slope⟩
  ln a := ⟨A.ln a.value, A.div a.slope a.value⟩
  sqrt a := ⟨A.sqrt a.value, A.div a.slope (A.mul (A.constant 2) (A.sqrt a.value))⟩

/-- The laws that the rules of differentiation rest on. -/
structure Lawful (A : Arithmetic K) : Prop where
  zero_add : ∀ a, A.add A.zero a = a
  one_mul : ∀ a, A.mul (A.constant 1) a = a
  neg_one_mul : ∀ a, A.mul (A.constant (-1)) a = A.neg a
  add_neg : ∀ a b, A.add a (A.neg b) = A.sub a b
  mul_comm : ∀ a b, A.mul a b = A.mul b a
  double_mul : ∀ a b, A.mul (A.mul (A.constant 2) a) b = A.add (A.mul b a) (A.mul a b)
  zero_div : ∀ a, A.div A.zero a = A.zero
  /-- The rule for a quotient and the chain rule with its partial derivatives agree. -/
  quotient : ∀ a b da db, A.add (A.mul (A.div (A.constant 1) b) da)
    (A.mul (A.div (A.neg a) (A.mul b b)) db) = A.div (A.sub (A.mul da b) (A.mul a db)) (A.mul b b)

variable {A : Arithmetic K}

theorem moving_value (A : Arithmetic K) : A.moving.Hom A Dual.value where
  constant _ := rfl
  add _ _ := rfl
  sub _ _ := rfl
  mul _ _ := rfl
  div _ _ := rfl
  neg _ := rfl
  exp _ := rfl
  ln _ := rfl
  sqrt _ := rfl

theorem sumOfSquares_slope (ds : List (Dual K)) : (A.moving.sumOfSquares ds).slope =
    ds.foldl (fun sum d => A.add sum (A.add (A.mul d.slope d.value) (A.mul d.value d.slope)))
      A.zero :=
  (List.foldl_hom Dual.slope fun _ _ => rfl).symm

theorem sumOfExponentials_slope (ds : List (Dual K)) : (A.moving.sumOfExponentials ds).slope =
    ds.foldl (fun sum d => A.add sum (A.mul (A.exp d.value) d.slope)) A.zero :=
  (List.foldl_hom Dual.slope fun _ _ => rfl).symm

end Arithmetic

/-- A point that moves along one variable. -/
def Point.moving (A : Arithmetic K) (p : Point K) (name : String) : Point (Dual K) :=
  let seed (v : Variable) : Dual K := ⟨p.get v, if v.name = name then A.constant 1 else A.zero⟩
  ⟨seed .x, seed .y, seed .z⟩

theorem Point.get_moving (A : Arithmetic K) (p : Point K) (name : String) (v : Variable) :
    (p.moving A name).get v = ⟨p.get v, if v.name = name then A.constant 1 else A.zero⟩ := by
  cases v <;> rfl

namespace Expr

variable {A : Arithmetic K} {p : Point K} {name : String}

@[simp] theorem eval_moving_value (e : Expr) :
    (e.eval A.moving (p.moving A name)).value = e.eval A p :=
  eval_hom A.moving_value fun v _ => congrArg Dual.value (p.get_moving A name v)

theorem eval_sumOfProducts (hA : A.Lawful) (abs : List (Expr × Expr)) :
    (sumOfProducts abs).eval A p =
      abs.foldl (fun sum ab => A.add sum (A.mul (ab.1.eval A p) (ab.2.eval A p))) A.zero := by
  cases abs with
  | nil => rfl
  | cons ab abs =>
    rw [List.foldl_cons, hA.zero_add]
    exact (List.foldl_hom (eval A p) fun _ _ => rfl).symm

section Operands

variable {es : List Expr}
  (hs : ∀ e ∈ es, (e.differential name).eval A p = (e.eval A.moving (p.moving A name)).slope)
include hs

/-- A sum of squares and a sum of exponentials have one partial derivative for each operand. -/
theorem eval_sumOfProducts_map (hA : A.Lawful) (slope : Expr → Expr) :
    (sumOfProducts ((es.map slope).zip (es.map (differential name)))).eval A p =
      es.foldl (fun sum e => A.add sum
        (A.mul ((slope e).eval A p) (e.eval A.moving (p.moving A name)).slope)) A.zero := by
  rw [eval_sumOfProducts hA, List.zip_map', List.foldl_map]
  refine List.foldl_ext _ _ _ fun sum e he => ?_
  rw [hs e he]

theorem eval_sumsq (hA : A.Lawful) :
    (sumOfProducts ((slopes .sumsq es).zip (es.map (differential name)))).eval A p =
      (A.moving.sumOfSquares (es.map (eval A.moving (p.moving A name)))).slope := by
  rw [Arithmetic.sumOfSquares_slope, List.foldl_map]
  refine (eval_sumOfProducts_map hs hA _).trans (List.foldl_ext _ _ _ fun sum e _ => ?_)
  rw [eval_multiply, eval_constant, hA.double_mul, eval_moving_value]

theorem eval_sumexp (hA : A.Lawful) :
    (sumOfProducts ((slopes .sumexp es).zip (es.map (differential name)))).eval A p =
      (A.moving.sumOfExponentials (es.map (eval A.moving (p.moving A name)))).slope := by
  rw [Arithmetic.sumOfExponentials_slope, List.foldl_map]
  refine (eval_sumOfProducts_map hs hA _).trans (List.foldl_ext _ _ _ fun sum e _ => ?_)
  have hone : eval A p (.operation (.any .sumexp) [e]) = A.exp (e.eval A p) := hA.zero_add _
  rw [hone, eval_moving_value]

theorem eval_differentialOf (hA : A.Lawful) (q : Primitive) :
    (differentialOf q es (es.map (differential name))).eval A p =
      (q.apply A.moving (es.map (eval A.moving (p.moving A name)))).slope := by
  by_cases hes : es = []
  · subst es
    cases q <;> simp [differentialOf, Primitive.apply, Arithmetic.zero, Arithmetic.sumOfSquares,
      Arithmetic.sumOfExponentials]
    all_goals exact (hA.zero_div _).symm
  have hvalues : es.map (Dual.value ∘ eval A.moving (p.moving A name)) = es.map (eval A p) :=
    List.map_congr_left fun e _ => eval_moving_value e
  unfold differentialOf
  rw [if_neg hes]
  cases q with
  | sumsq => exact eval_sumsq hs hA
  | sumexp => exact eval_sumexp hs hA
  | distance =>
    simp [eval_sumsq hs hA, eval_operation, Primitive.apply, Operator.any,
      A.moving_value.sumOfSquares, hvalues]
  | lse =>
    simp [eval_sumexp hs hA, eval_operation, Primitive.apply, Operator.any,
      A.moving_value.sumOfExponentials, hvalues]
  | add =>
    rcases es with _ | ⟨a, _ | ⟨b, _ | ⟨c, es⟩⟩⟩ <;>
      simp [slopes, sumOfProducts, Primitive.apply, Arithmetic.zero] at hs ⊢
    rw [hs.1, hs.2, hA.one_mul, hA.one_mul]
  | subtract =>
    rcases es with _ | ⟨a, _ | ⟨b, _ | ⟨c, es⟩⟩⟩ <;>
      simp [slopes, sumOfProducts, Primitive.apply, Arithmetic.zero] at hs ⊢
    rw [hs.1, hs.2, hA.one_mul, hA.neg_one_mul, hA.add_neg]
  | multiply =>
    rcases es with _ | ⟨a, _ | ⟨b, _ | ⟨c, es⟩⟩⟩ <;>
      simp [slopes, sumOfProducts, Primitive.apply, Arithmetic.zero] at hs ⊢
    rw [hs.1, hs.2, hA.mul_comm (eval A p b)]
  | divide =>
    rcases es with _ | ⟨a, _ | ⟨b, _ | ⟨c, es⟩⟩⟩ <;>
      simp [slopes, sumOfProducts, Primitive.apply, Arithmetic.zero] at hs ⊢
    rw [hs.1, hs.2, hA.quotient]
  | negate =>
    rcases es with _ | ⟨a, _ | ⟨b, _ | ⟨c, es⟩⟩⟩ <;>
      simp [slopes, sumOfProducts, Primitive.apply, Arithmetic.zero] at hs ⊢
    rw [hs, hA.neg_one_mul]

end Operands

/-- In a lawful arithmetic the derivative is worth the slope. -/
theorem eval_differential_of_lawful (hA : A.Lawful) (e : Expr) :
    (e.differential name).eval A p = (e.eval A.moving (p.moving A name)).slope := by
  induction e using Term.induct with
  | onLeaf l =>
    cases l with
    | constant c => rfl
    | var v =>
      rw [differential, eval_var, Point.get_moving]
      by_cases hv : v.name = name
      · simp [hv]
      · simp [hv, Arithmetic.zero]
  | onOperation op es ih =>
    rw [differential_operation, eval_operation, eval_differentialOf ih hA op.primitive]

end Expr
end Fluxion

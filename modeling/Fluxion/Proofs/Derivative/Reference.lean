import Fluxion.Proofs.Derivative.Rules

namespace Fluxion.Expr

variable {name : String}

/-- The partial derivatives of the operations that have them. -/
def slopes : Primitive → List Expr → List Expr
  | .add, [_, _] => [constant 1, constant 1]
  | .subtract, [_, _] => [constant 1, constant (-1)]
  | .multiply, [a, b] => [b, a]
  | .divide, [a, b] => [.divide (constant 1) b, .divide (.negate a) (.multiply b b)]
  | .negate, [_] => [constant (-1)]
  | .sumsq, es => es.map fun e => .multiply (constant 2) e
  | .sumexp, es => es.map fun e => .operation (.any .sumexp) [e]
  | _, _ => []

/-- Products summed from the left, and zero where there are none. -/
def sumOfProducts : List (Expr × Expr) → Expr
  | [] => constant 0
  | (a, b) :: rest => rest.foldl (fun sum ab => sum.add (.multiply ab.1 ab.2)) (.multiply a b)

/-- The derivative of an operation: of none of the operands, of the sum under a root or a logarithm
over twice the root or the sum itself, or by the chain rule. -/
def differentialOf (p : Primitive) (es ds : List Expr) : Expr :=
  if es = [] then constant 0
  else
    match p with
    | .distance => .divide (sumOfProducts ((slopes .sumsq es).zip ds))
        (.multiply (constant 2) (.operation (.any .distance) es))
    | .lse => .divide (sumOfProducts ((slopes .sumexp es).zip ds)) (.operation (.any .sumexp) es)
    | p => sumOfProducts ((slopes p es).zip ds)

mutual
/-- The derivative of a tree by the variable of a name. -/
def differential (name : String) : Expr → Expr
  | .leaf (.constant _) => constant 0
  | .leaf (.var v) => if v.name = name then constant 1 else constant 0
  | .operation op es => differentialOf op.primitive es (differentials name es)

def differentials (name : String) : List Expr → List Expr
  | [] => []
  | e :: es => differential name e :: differentials name es
end

theorem differentials_eq_map (name : String) (es : List Expr) :
    differentials name es = es.map (differential name) := by
  induction es with
  | nil => rfl
  | cons e es ih => rw [differentials, ih, List.map_cons]

theorem differential_operation (name : String) (op : Operator) (es : List Expr) :
    differential name (.operation op es) =
      differentialOf op.primitive es (es.map (differential name)) := by
  rw [differential, differentials_eq_map]

/-- A root is differentiated through the sum of squares under it. -/
theorem differential_distance {op : Operator} (hp : op.primitive = .distance) {es : List Expr}
    (he : es ≠ []) : differential name (.operation op es) =
      .divide (differential name (.operation (.any .sumsq) es))
        (.multiply (constant 2) (.operation (.any .distance) es)) := by
  simp [differential_operation, differentialOf, hp, he, Operator.any]

/-- A logarithm is differentiated through the sum of exponentials under it. -/
theorem differential_lse {op : Operator} (hp : op.primitive = .lse) {es : List Expr}
    (he : es ≠ []) :
    differential name (.operation op es) =
      .divide (differential name (.operation (.any .sumexp) es))
        (.operation (.any .sumexp) es) := by
  simp [differential_operation, differentialOf, hp, he, Operator.any]

theorem join_partials (p : Primitive) (es : List Expr) :
    (p.partials shared es).map Term.join = slopes p es := by
  rcases es with _ | ⟨a, _ | ⟨b, _ | ⟨c, es⟩⟩⟩ <;> cases p <;>
    simp [Primitive.partials, slopes, shared, Shared.value, Term.divide, Term.negate, Term.multiply]

theorem join_chainRule (ps ds : List Expr) :
    (chainRule shared ps ds).join = sumOfProducts (ps.zip ds) := by
  have hz : List.zipWith (fun p d => Term.multiply (.leaf p) (.leaf d)) ps ds =
      (ps.zip ds).map fun pd => Term.multiply (.leaf pd.1) (.leaf pd.2) := by
    rw [List.zip, List.map_zipWith]
  rw [chainRule, hz]
  cases ps.zip ds with
  | nil => rfl
  | cons pd rest =>
    refine (bind_foldl_add id _ _).trans ?_
    rw [List.map_map, List.foldl_map]
    rfl

theorem chain_eq (p : Primitive) (es ds : List Expr) :
    chain p es ds = sumOfProducts ((slopes p es).zip ds) := by
  rw [chain, join_partials, join_chainRule]

theorem derivativeOf_eq (p : Primitive) (es ds : List Expr) :
    derivativeOf p es ds = differentialOf p es ds := by
  unfold derivativeOf differentialOf
  split
  · rfl
  · cases p <;> simp [Primitive.quotient?, chain_eq, shared, Shared.value, Term.multiply,
      Function.comp_def]

theorem derivative_eq_differential (name : String) (e : Expr) :
    e.derivative name = e.differential name := by
  induction e using Term.induct with
  | onLeaf l =>
    cases l with
    | constant value => rfl
    | var v =>
      by_cases hv : v.name = name <;> simp [derivative, differential, Leaf.derivative, hv, shared,
        Shared.value]
  | onOperation op es ih =>
    rw [derivative_operation, differential_operation, derivativeOf_eq, List.map_congr_left ih]

end Fluxion.Expr

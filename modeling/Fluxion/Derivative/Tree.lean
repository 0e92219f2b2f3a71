import Fluxion.Derivative.Rule

namespace Fluxion.Expr

def shared (c : Shared) : Expr := constant c.value

/-- The chain rule over expressions. -/
def chain (p : Primitive) (operands derivatives : List Expr) : Expr :=
  Term.join (chainRule shared ((p.partials shared operands).map Term.join) derivatives)

/-- The derivative of an operation from those of its operands. -/
def derivativeOf (p : Primitive) (operands derivatives : List Expr) : Expr :=
  if operands = [] then shared .zero
  else
    match p.quotient? shared operands with
    | some (inner, divisor) => Term.divide (chain inner operands derivatives) divisor.join
    | none => chain p operands derivatives

mutual
/-- The derivative by a variable. Any other name is one that no leaf depends on. -/
def derivative (name : String) : Expr → Expr
  | .leaf l => shared (l.derivative name)
  | .operation op ts => derivativeOf op.primitive ts (derivatives name ts)

def derivatives (name : String) : List Expr → List Expr
  | [] => []
  | t :: ts => derivative name t :: derivatives name ts
end

def gradient (e : Expr) : List Expr := Variable.all.map fun v => derivative v.name e

end Fluxion.Expr

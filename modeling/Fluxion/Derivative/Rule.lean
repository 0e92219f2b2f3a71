import Fluxion.Expr

namespace Fluxion

/-- The constants that derivatives use. -/
inductive Shared
  | zero
  | one
  | negOne
  | two
deriving DecidableEq

namespace Shared

def value : Shared → Float
  | zero => 0
  | one => 1
  | negOne => -1
  | two => 2

end Shared

namespace Primitive

variable {α : Type} (shared : Shared → α)

/-- The partial derivative by each operand, for the operations that have a rule of that kind. -/
def partials : Primitive → List α → List (Term α)
  | add, [_, _] => [.leaf (shared .one), .leaf (shared .one)]
  | subtract, [_, _] => [.leaf (shared .one), .leaf (shared .negOne)]
  | multiply, [a, b] => [.leaf b, .leaf a]
  | divide, [a, b] =>
    [.divide (.leaf (shared .one)) (.leaf b),
      .divide (.negate (.leaf a)) (.multiply (.leaf b) (.leaf b))]
  | negate, [_] => [.leaf (shared .negOne)]
  | sumsq, as => as.map fun a => .multiply (.leaf (shared .two)) (.leaf a)
  | sumexp, as => as.map fun a => .operation (.any sumexp) [.leaf a]
  | _, _ => []

/-- A root or a logarithm of a sum: the derivative of the sum, and what it is divided by. -/
def quotient? : Primitive → List α → Option (Primitive × Term α)
  | distance, as =>
    some (sumsq, .multiply (.leaf (shared .two)) (.operation (.any distance) (as.map .leaf)))
  | lse, as => some (sumexp, .operation (.any sumexp) (as.map .leaf))
  | _, _ => none

end Primitive

/-- The sum from the left of each partial derivative times the derivative of its operand. Nothing is
simplified. -/
def chainRule (shared : Shared → α) (partials derivatives : List α) : Term α :=
  match List.zipWith (fun p d => Term.multiply (.leaf p) (.leaf d)) partials derivatives with
  | [] => .leaf (shared .zero)
  | t :: ts => ts.foldl Term.add t

/-- Leaves are differentiated without a new node. -/
def Leaf.derivative (name : String) : Leaf → Shared
  | .constant _ => .zero
  | .var v => if v.name = name then .one else .zero

end Fluxion

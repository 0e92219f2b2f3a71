import Fluxion.Term
import Fluxion.Variable

namespace Fluxion

inductive Leaf
  | constant (value : Float)
  | var (v : Variable)
deriving DecidableEq

instance : Inhabited Leaf := ⟨.constant 0⟩

abbrev Expr := Term Leaf

def Leaf.eval (A : Arithmetic K) (p : Point K) : Leaf → K
  | .constant value => A.constant value
  | .var v => p.get v

namespace Expr

def constant (value : Float) : Expr := .leaf (.constant value)

def var (v : Variable) : Expr := .leaf (.var v)

/-- Division by zero and the like are left to the arithmetic. -/
def eval (A : Arithmetic K) (p : Point K) : Expr → K :=
  Term.fold (Leaf.eval A p) fun op values => op.primitive.apply A values

/-- How many leaves and operations an expression has. -/
def nodeCount : Expr → Nat := Term.fold (fun _ => 1) fun _ counts => counts.foldl (· + ·) 1

end Expr

end Fluxion

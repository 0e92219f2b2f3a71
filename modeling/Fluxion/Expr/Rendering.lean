import Fluxion.Expr
import Fluxion.Notation
import Fluxion.Number.Layout

namespace Fluxion

def Leaf.text : Leaf → String
  | .constant value => Layout.plain.text value
  | .var v => v.name

namespace Expr

/-- Operands in order, then the sign. -/
def bare : Expr → String :=
  Term.fold Leaf.text fun op operands => String.join (operands.map (· ++ " ")) ++ op.sign

def signFirst : Expr → String :=
  Term.fold Leaf.text fun op operands =>
    "(" ++ op.sign ++ String.join (operands.map (" " ++ ·)) ++ ")"

def signLast : Expr → String :=
  Term.fold Leaf.text fun op operands =>
    "(" ++ String.join (operands.map (· ++ " ")) ++ op.sign ++ ")"

def render : Notation → Expr → String
  | .signFirst => signFirst
  | .signLast => signLast

end Expr
end Fluxion

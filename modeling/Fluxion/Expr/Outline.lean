import Fluxion.Expr
import Fluxion.Number.Layout

namespace Fluxion

def Leaf.outline : Leaf → Outline
  | .constant value => .call "Constant" (.atom (Layout.marked.text value))
  | .var v => .call "Variable" (.record "Variable" [("index", .atom (toString v.index))] false)

namespace Expr

def outline : Expr → Outline :=
  Term.fold Leaf.outline fun op operands =>
    .call "Operation"
      (.record "Operation" [("sign", .quoted op.sign), ("operands", .items operands)] true)

end Expr
end Fluxion

import Fluxion.Operator.Primitive

namespace Fluxion

/-- An operation, for any operands it takes or for a count of its own. -/
structure Operator where
  primitive : Primitive
  count? : Option Nat
deriving DecidableEq

namespace Operator

def any (p : Primitive) : Operator := ⟨p, none⟩

def numbered (p : Primitive) (count : Nat) : Operator := ⟨p, some count⟩

def sign (o : Operator) : String := o.primitive.name ++ (o.count?.map toString).getD ""

def arity (o : Operator) : Arity := (o.count?.map Arity.fixed).getD o.primitive.arity

/-- Every operator a text can name, in the order of the signs. A sum of squares or a distance has a
sign for each count of operands; the signs without a number appear only in derivatives. -/
def vocabulary : List Operator :=
  [any .multiply, any .add, any .subtract, any .divide] ++ [2, 3, 4, 5].map (numbered .distance) ++
    [any .lse, any .negate, any .sumexp] ++ [2, 3, 4, 5].map (numbered .sumsq)

def ofSign? (sign : String) : Option Operator := vocabulary.find? (·.sign == sign)

theorem ofSign?_sign {o : Operator} (h : o ∈ vocabulary) : ofSign? o.sign = some o := by
  revert o
  decide +kernel

def outline (o : Operator) : Outline :=
  .record "Operator" [("sign", .quoted o.sign), ("arity", o.arity.outline),
    ("def", .record "OperationDefinition"
      [("name", .quoted o.primitive.name), ("arity", o.primitive.arity.outline)] true)] false

end Operator
end Fluxion

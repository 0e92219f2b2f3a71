import Fluxion.Arithmetic
import Fluxion.Operator.Arity

namespace Fluxion

inductive Primitive
  | add
  | subtract
  | multiply
  | divide
  | negate
  | sumsq
  | distance
  | sumexp
  | lse
deriving DecidableEq

namespace Primitive

def name : Primitive → String
  | add => "+"
  | subtract => "-"
  | multiply => "*"
  | divide => "/"
  | negate => "negate"
  | sumsq => "sumsq"
  | distance => "distance"
  | sumexp => "sumexp"
  | lse => "lse"

def arity : Primitive → Arity
  | add | subtract | multiply | divide => .fixed 2
  | negate => .fixed 1
  | sumsq | distance | sumexp | lse => .variadic

/-- The value of an operation. A list of operands that the arity rules out, which no reader or
constructor lets through, has the value zero. -/
def apply (A : Arithmetic K) : Primitive → List K → K
  | add, [a, b] => A.add a b
  | subtract, [a, b] => A.sub a b
  | multiply, [a, b] => A.mul a b
  | divide, [a, b] => A.div a b
  | negate, [a] => A.neg a
  | sumsq, as => A.sumOfSquares as
  | distance, as => A.sqrt (A.sumOfSquares as)
  | sumexp, as => A.sumOfExponentials as
  | lse, as => A.ln (A.sumOfExponentials as)
  | _, _ => A.zero

end Primitive
end Fluxion

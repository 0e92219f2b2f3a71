namespace Fluxion

/-- What evaluation needs to know about numbers. -/
structure Arithmetic (K : Type) where
  constant : Float → K
  add : K → K → K
  sub : K → K → K
  mul : K → K → K
  div : K → K → K
  neg : K → K
  exp : K → K
  ln : K → K
  sqrt : K → K

namespace Arithmetic

/-- Rounded after every step. -/
def binary64 : Arithmetic Float :=
  ⟨id, (· + ·), (· - ·), (· * ·), (· / ·), (- ·), Float.exp, Float.log, Float.sqrt⟩

def zero (A : Arithmetic K) : K := A.constant 0

/-- Summed from the left, starting at zero. -/
def sumOfSquares (A : Arithmetic K) (as : List K) : K :=
  as.foldl (fun sum a => A.add sum (A.mul a a)) A.zero

/-- Summed from the left, starting at zero. -/
def sumOfExponentials (A : Arithmetic K) (as : List K) : K :=
  as.foldl (fun sum a => A.add sum (A.exp a)) A.zero

end Arithmetic
end Fluxion

import Fluxion.Operator
import Fluxion.Variable

namespace Fluxion

/-- Why a node could not be built. A sign is looked up before its operands are counted. -/
inductive BuildError
  | unknownVariable (name : String)
  | unknownOperation (sign : String)
  | operandCount (sign : String) (expected got : Nat)
deriving DecidableEq

def BuildError.message : BuildError → String
  | unknownVariable name => "unknown variable '" ++ name ++ "', expected one of x, y, z"
  | unknownOperation sign => "unknown operation '" ++ sign ++ "'"
  | operandCount sign expected got =>
    "operation '" ++ sign ++ "' takes " ++ toString expected ++ " operands, got " ++ toString got

def Variable.require (name : String) : Except BuildError Variable :=
  match Variable.ofName? name with
  | some v => .ok v
  | none => .error (.unknownVariable name)

/-- The operator a sign names, if it takes `count` operands. -/
def Operator.require (sign : String) (count : Nat) : Except BuildError Operator :=
  match Operator.ofSign? sign with
  | none => .error (.unknownOperation sign)
  | some op =>
    match op.arity.mismatch? count with
    | some expected => .error (.operandCount sign expected count)
    | none => .ok op

end Fluxion

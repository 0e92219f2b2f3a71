import Fluxion.Text.Excerpt

namespace Fluxion

inductive ParseCause
  | notText
  | empty
  | unexpected (token : String)
  | unclosed (got : String)
  | trailing (token : String)
  | signExpected (token : String)
  | operandCount (sign : String) (expected got : Nat)
  | tooDeep (limit : Nat)
deriving DecidableEq

def ParseCause.message : ParseCause → String
  | notText => "the expression must be text"
  | empty => "the expression is empty"
  | unexpected token => "Unexpected token: '" ++ token ++ "'"
  | unclosed got => "')' expected, got '" ++ got ++ "'"
  | trailing token => "end of expression expected, got '" ++ token ++ "'"
  | signExpected token => "operation expected, got '" ++ token ++ "'"
  | operandCount sign expected got =>
    "invalid number of operands for '" ++ sign ++ "': expected " ++ toString expected ++ ", got " ++
      toString got
  | tooDeep limit => "expression nesting depth exceeds the limit of " ++ toString limit

/-- A cause and the position it was noticed at. -/
structure Fault where
  cause : ParseCause
  position : Nat
deriving DecidableEq

structure ParseError extends Fault where
  excerpt : Excerpt
deriving DecidableEq

def Fault.within (f : Fault) (source : List Char) (width : Nat) : ParseError :=
  ⟨f, Excerpt.around source f.position width⟩

def ParseError.message (e : ParseError) : String :=
  toString e.position ++ ": " ++ e.cause.message ++ " " ++ e.excerpt.text

end Fluxion

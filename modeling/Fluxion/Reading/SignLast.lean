import Fluxion.Reading.Grammar

namespace Fluxion.Reading.SignLast

/-- A group with its operands so far, the latest first, or one that only has to be closed. -/
inductive Group
  | filling (operands : List Expr)
  | complete (e : Expr)

/-- The sign right before the closing parenthesis takes all the operands. -/
def applyLast (operands : List Expr) (t : Token) : Except ParseCause Expr :=
  match t.lexeme.sign? with
  | none => .error (.signExpected t.text)
  | some op =>
    match op.arity.mismatch? operands.length with
    | some expected => .error (.operandCount op.sign expected operands.length)
    | none => .ok (.operation op operands.reverse)

/-- A sign inside a group takes as many of the latest operands as it needs, or all of them. -/
def applyInside (operands : List Expr) (op : Operator) : Except ParseCause (List Expr) :=
  let count := op.arity.fixed?.getD operands.length
  if operands.length < count then .error (.operandCount op.sign count operands.length)
  else .ok (.operation op (operands.take count).reverse :: operands.drop count)

def fill (operands : List Expr) (t : Token) : Except ParseCause (Move Group (List Expr)) :=
  match t.lexeme.sign? with
  | some op => (applyInside operands op).map fun operands => .stay (.filling operands)
  | none =>
    match start t with
    | .ok .group => .ok (.descend operands)
    | .ok (.leaf l) => .ok (.stay (.filling (.leaf l :: operands)))
    | .error cause => .error cause

def Group.advance (group : Group) (t : Token) (next : Option Token) :
    Except ParseCause (Move Group (List Expr)) :=
  match group with
  | .filling operands =>
    if next.any (·.lexeme = .closing) then (applyLast operands t).map fun e => .stay (.complete e)
    else fill operands t
  | .complete e => if t.lexeme = .closing then .ok (.close e) else .error (.unclosed t.text)

/-- The sign comes last. One that is met before is applied at once. -/
def grammar : Grammar Group (List Expr) :=
  ⟨.filling [], Group.advance, fun operands e => .filling (e :: operands),
    fun _ => .unclosed ""⟩

end Fluxion.Reading.SignLast

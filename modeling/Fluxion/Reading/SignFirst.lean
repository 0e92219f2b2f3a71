import Fluxion.Reading.Grammar

namespace Fluxion.Reading.SignFirst

/-- A group whose sign is known, with its operands so far, the latest first. -/
structure Call where
  op : Operator
  operands : List Expr

inductive Group
  | unnamed
  | call (c : Call)

namespace Call

def add (c : Call) (e : Expr) : Call := { c with operands := e :: c.operands }

def expr (c : Call) : Expr := .operation c.op c.operands.reverse

/-- The count the operands fall short of. -/
def missing? (c : Call) : Option ParseCause :=
  match c.op.arity.fixed? with
  | some expected =>
    if c.operands.length < expected then some (.operandCount c.op.sign expected c.operands.length)
    else none
  | none => none

/-- The group cannot take the token as an operand. -/
def closeAt (c : Call) (t : Token) : Except ParseCause (Move Group Call) :=
  match c.missing? with
  | some cause => .error cause
  | none => if t.lexeme = .closing then .ok (.close c.expr) else .error (.unclosed t.text)

def advance (c : Call) (t : Token) : Except ParseCause (Move Group Call) :=
  if t.lexeme ≠ .closing ∧ c.op.arity.hasRoom c.operands.length then
    match start t with
    | .ok .group => .ok (.descend c)
    | .ok (.leaf l) => .ok (.stay (.call (c.add (.leaf l))))
    | .error cause => .error cause
  else c.closeAt t

end Call

def Group.advance (group : Group) (t : Token) : Except ParseCause (Move Group Call) :=
  match group with
  | .unnamed =>
    match t.lexeme.sign? with
    | some op => .ok (.stay (.call ⟨op, []⟩))
    | none => .error (.signExpected t.text)
  | .call c => c.advance t

def Group.ended : Group → ParseCause
  | .unnamed => .signExpected ""
  | .call c => c.missing?.getD (.unclosed "")

/-- The sign comes first, and settles how many operands follow. -/
def grammar : Grammar Group Call :=
  ⟨.unnamed, fun group t _ => group.advance t, fun c e => .call (c.add e), Group.ended⟩

end Fluxion.Reading.SignFirst

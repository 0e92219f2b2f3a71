import Fluxion.Expr
import Fluxion.Number.Numeral
import Fluxion.ParseError
import Fluxion.Token

namespace Fluxion

def Leaf.ofWord? (chars : List Char) : Option Leaf :=
  ((Variable.ofName? (String.ofList chars)).map Leaf.var).or
    ((Numeral.read? chars).map Leaf.constant)

def Lexeme.sign? : Lexeme → Option Operator
  | .word chars => Operator.ofSign? (String.ofList chars)
  | _ => none

namespace Reading

/-- What a token starts where an operand is due. -/
inductive Start
  | group
  | leaf (l : Leaf)

def start (t : Token) : Except ParseCause Start :=
  match t.lexeme with
  | .opening => .ok .group
  | .closing => .error (.unexpected t.text)
  | .word chars =>
    match Leaf.ofWord? chars with
    | some l => .ok (.leaf l)
    | none => .error (.unexpected t.text)

/-- What a token inside a group does: the group goes on, waits for a group that opens, or is
read. -/
inductive Move (Group Held : Type)
  | stay (group : Group)
  | descend (held : Held)
  | close (e : Expr)

/-- The inside of a group, which is all that the two notations differ in. `advance` sees a token and
the one after it. -/
structure Grammar (Group Held : Type) where
  opened : Group
  advance : Group → Token → Option Token → Except ParseCause (Move Group Held)
  resume : Held → Expr → Group
  ended : Group → ParseCause

/-- How far a text has been read: the innermost open group comes first, then those that wait for
it. -/
inductive Progress (Group Held : Type)
  | awaiting
  | inside (group : Group) (outer : List Held)
  | finished (e : Expr)

variable {Group Held : Type}

def Progress.depth : Progress Group Held → Nat
  | inside _ outer => outer.length + 1
  | _ => 0

/-- The limit, if the reading has gone deeper. -/
def Progress.excess? (p : Progress Group Held) (limit : Option Nat) : Option Nat :=
  limit.filter (· < p.depth)

namespace Grammar

def step (g : Grammar Group Held) (p : Progress Group Held) (t : Token) (next : Option Token) :
    Except ParseCause (Progress Group Held) :=
  match p with
  | .awaiting =>
    match start t with
    | .ok .group => .ok (.inside g.opened [])
    | .ok (.leaf l) => .ok (.finished (.leaf l))
    | .error cause => .error cause
  | .inside group outer =>
    match g.advance group t next, outer with
    | .ok (.stay group), _ => .ok (.inside group outer)
    | .ok (.descend held), _ => .ok (.inside g.opened (held :: outer))
    | .ok (.close e), [] => .ok (.finished e)
    | .ok (.close e), held :: outer => .ok (.inside (g.resume held e) outer)
    | .error cause, _ => .error cause
  | .finished _ => .error (.trailing t.text)

def finish : Grammar Group Held → Progress Group Held → Except ParseCause Expr
  | _, .awaiting => .error .empty
  | g, .inside group _ => .error (g.ended group)
  | _, .finished e => .ok e

/-- A group too deep is noticed at the token after its parenthesis, before that token is looked
at. -/
def run (g : Grammar Group Held) (limit : Option Nat) (endPosition : Nat)
    (p : Progress Group Held) :
    List Token → Except Fault Expr
  | [] =>
    match p.excess? limit with
    | some depth => .error ⟨.tooDeep depth, endPosition⟩
    | none => (g.finish p).mapError (⟨·, endPosition⟩)
  | t :: ts =>
    match p.excess? limit with
    | some depth => .error ⟨.tooDeep depth, t.position⟩
    | none =>
      match g.step p t ts.head? with
      | .error cause => .error ⟨cause, t.position⟩
      | .ok p => run g limit endPosition p ts

def read (g : Grammar Group Held) (limit : Option Nat) (source : List Char) : Except Fault Expr :=
  g.run limit (source.length + 1) .awaiting (Token.scan source)

end Grammar
end Reading
end Fluxion

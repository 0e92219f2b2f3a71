import Fluxion.BuildError
import Fluxion.Derivative.Tree
import Fluxion.Expr.Rendering
import Fluxion.Graph.Derivative
import Fluxion.Graph.Equality
import Fluxion.Graph.Numbering
import Fluxion.Reader

namespace Fluxion

/-- A register holds a node, so that what is built from it shares it. -/
structure Session where
  graph : Graph
  registers : Array NodeId

namespace Session

def start : Session := ⟨.initial, #[]⟩

inductive Failure
  | noRegister
  | build (e : BuildError)
  | parse (e : ParseError)
deriving DecidableEq

/-- The operations that are written between their operands. -/
inductive Binary
  | add
  | subtract
  | multiply
  | divide
deriving DecidableEq

def Binary.primitive : Binary → Primitive
  | add => .add
  | subtract => .subtract
  | multiply => .multiply
  | divide => .divide

/-- A number stands for a new constant. -/
inductive Operand
  | register (r : Nat)
  | number (value : Float)

inductive Step
  | read (r : Reader) (text : String)
  | readBytes (r : Reader) (bytes : List UInt8)
  | reread (r : Nat) (form : Notation)
  | constant (value : Float)
  | shared (c : Shared)
  | var (name : String)
  | operation (sign : String) (rs : List Nat)
  | binary (op : Binary) (a b : Operand)
  | negate (r : Nat)
  | derivative (r : Nat) (name : String)
  | gradient (r : Nat)
  | operand (r i : Nat)
  | copy (r : Nat)

def node (s : Session) (r : Nat) : Except Failure NodeId :=
  match s.registers[r]? with
  | some n => .ok n
  | none => .error .noRegister

def expr (s : Session) (r : Nat) : Except Failure Expr := (s.node r).map s.graph.expr

/-- The graph with the node that an operand stands for. -/
def supply (s : Session) (g : Graph) : Operand → Except Failure (Graph × NodeId)
  | .register r => (s.node r).map (g, ·)
  | .number value => .ok (g.add (.leaf (.constant value)))

def insert (s : Session) (read : Except ParseError Expr) :
    Except Failure (Graph × List NodeId) := do
  let (g, n) := s.graph.insert (← read.mapError .parse)
  return (g, [n])

def apply (g : Graph) (op : Operator) (operands : List NodeId) : Graph × List NodeId :=
  let (g, n) := g.add (.operation op operands)
  (g, [n])

/-- The graph after a step, and the nodes that new registers are to hold. -/
def effect (s : Session) : Step → Except Failure (Graph × List NodeId)
  | .read r text => s.insert (r.read text)
  | .readBytes r bytes => s.insert (r.readBytes bytes)
  | .reread r form => do s.insert ({ form : Reader }.read ((← s.expr r).render form))
  | .constant value =>
    let (g, n) := s.graph.add (.leaf (.constant value))
    .ok (g, [n])
  | .shared c => .ok (s.graph, [c.id])
  | .var name => do
    let v ← (Variable.require name).mapError .build
    let (g, n) := s.graph.add (.leaf (.var v))
    return (g, [n])
  | .operation sign rs => do
    let operands ← rs.mapM s.node
    let op ← (Operator.require sign operands.length).mapError .build
    return apply s.graph op operands
  | .binary op a b => do
    let (g, m) ← s.supply s.graph a
    let (g, n) ← s.supply g b
    return apply g (.any op.primitive) [m, n]
  | .negate r => do return apply s.graph (.any .negate) [← s.node r]
  | .derivative r name => do
    let (g, d) := s.graph.derivative name (← s.node r)
    return (g, [d])
  | .gradient r => do return s.graph.gradient (← s.node r)
  | .operand r i => do return (s.graph, (s.graph.operands (← s.node r))[i]?.toList)
  | .copy r => do return (s.graph, [← s.node r])

/-- A step that fails changes nothing. Otherwise its nodes go into the next registers, whose numbers
are its answer. -/
def perform (s : Session) (step : Step) : Session × Except Failure (List Nat) :=
  match s.effect step with
  | .ok (g, ns) =>
    (⟨g, s.registers ++ ns⟩, .ok (List.range' s.registers.size ns.length))
  | .error e => (s, .error e)

def run (s : Session) (steps : List Step) : Session :=
  steps.foldl (fun s step => (s.perform step).1) s

/-- Structural equality. -/
def equal (s : Session) (a b : Nat) : Except Failure Bool := do
  return s.graph.equal (← s.node a) (← s.node b)

/-- Whether two registers hold the same node. -/
def same (s : Session) (a b : Nat) : Except Failure Bool := do
  return (← s.node a) == (← s.node b)

def content (s : Session) (r : Nat) : Except Failure (Option Node) :=
  (s.node r).map (s.graph.nodes[·]?)

def picture (s : Session) (rs : List Nat) : Except Failure Graph.Picture :=
  (rs.mapM s.node).map s.graph.picture

end Session
end Fluxion

import Fluxion.Derivative.Rule

namespace Fluxion

abbrev NodeId := Nat

inductive Node
  | leaf (l : Leaf)
  | operation (op : Operator) (operands : List NodeId)
deriving DecidableEq

/-- What was worked out about a node: its partial derivatives, and its derivative by
each variable that was asked for. -/
structure Memo where
  partials? : Option (List NodeId)
  derivatives : List (String × NodeId)

def Memo.empty : Memo := ⟨none, []⟩

/-- Expressions that share their parts. The operands of a node are older than the node. -/
structure Graph where
  nodes : Array Node
  memos : Array Memo

/-- The constants that derivatives use are the first nodes of every graph. -/
def Shared.id : Shared → NodeId
  | zero => 0
  | one => 1
  | negOne => 2
  | two => 3

namespace Graph

def initial : Graph :=
  ⟨#[Shared.zero, .one, .negOne, .two].map fun c => .leaf (.constant c.value),
    .replicate 4 .empty⟩

def size (g : Graph) : Nat := g.nodes.size

def operands (g : Graph) (n : NodeId) : List NodeId :=
  match g.nodes[n]? with
  | some (.operation _ ns) => ns
  | _ => []

def memo (g : Graph) (n : NodeId) : Memo := g.memos.getD n .empty

def add (g : Graph) (node : Node) : Graph × NodeId :=
  (⟨g.nodes.push node, g.memos.push .empty⟩, g.size)

def rememberPartials (g : Graph) (n : NodeId) (ps : List NodeId) : Graph :=
  { g with memos := g.memos.modify n fun memo => { memo with partials? := some ps } }

def remember (g : Graph) (n : NodeId) (name : String) (d : NodeId) : Graph :=
  { g with memos := g.memos.modify n fun memo =>
      { memo with derivatives := (name, d) :: memo.derivatives } }

@[simp] theorem size_add (g : Graph) (node : Node) : (g.add node).1.size = g.size + 1 := by
  simp [add, size]

/-- A node that is there stays what it is. -/
theorem nodes_add_of_lt {g : Graph} {n : NodeId} (node : Node) (h : n < g.size) :
    (g.add node).1.nodes[n]? = g.nodes[n]? := by
  simp only [size] at h
  simp [add, Array.getElem?_push, Nat.ne_of_lt h]

@[simp] theorem nodes_rememberPartials (g : Graph) (n : NodeId) (ps : List NodeId) :
    (g.rememberPartials n ps).nodes = g.nodes := rfl

@[simp] theorem nodes_remember (g : Graph) (n : NodeId) (name : String) (d : NodeId) :
    (g.remember n name d).nodes = g.nodes := rfl

mutual
/-- A new node for every operation of a term, and whatever `place` makes of its leaves. -/
def build (place : Graph → α → Graph × NodeId) (g : Graph) : Term α → Graph × NodeId
  | .leaf a => place g a
  | .operation op ts =>
    let (g, ns) := buildAll place g ts
    g.add (.operation op ns)

def buildAll (place : Graph → α → Graph × NodeId) (g : Graph) :
    List (Term α) → Graph × List NodeId
  | [] => (g, [])
  | t :: ts =>
    let (g, n) := build place g t
    let (g, ns) := buildAll place g ts
    (g, n :: ns)
end

/-- New nodes for all of an expression. -/
def insert (g : Graph) (e : Expr) : Graph × NodeId := g.build (fun g l => g.add (.leaf l)) e

/-- New operations over nodes that are there. -/
def extend (g : Graph) (t : Term NodeId) : Graph × NodeId := g.build (·, ·) t

def extendAll (g : Graph) (ts : List (Term NodeId)) : Graph × List NodeId := g.buildAll (·, ·) ts

end Graph

/-- A node as an expression, from those of all older nodes. -/
def Node.expr (older : Array Expr) : Node → Expr
  | leaf l => .leaf l
  | operation op ns => .operation op (ns.map (older.getD · default))

namespace Graph

/-- Each node as an expression of its own, with nothing shared. -/
def exprs (g : Graph) : Array Expr :=
  g.nodes.foldl (fun older node => older.push (node.expr older)) #[]

def expr (g : Graph) (n : NodeId) : Expr := g.exprs.getD n default

end Graph
end Fluxion

import Fluxion.Graph

namespace Fluxion.Graph

/-- The derivative of a node, if it is a leaf or was worked out before. -/
def derivative? (g : Graph) (name : String) (n : NodeId) : Option NodeId :=
  match g.nodes[n]? with
  | some (.leaf l) => some (l.derivative name).id
  | _ => (g.memo n).derivatives.lookup name

/-- The derivative of a node that is known to have one. -/
def derivativeOf (g : Graph) (name : String) (n : NodeId) : NodeId :=
  (g.derivative? name n).getD Shared.zero.id

/-- The partial derivatives of an operation are worked out for the
first variable and serve all others. -/
def partialsOf (g : Graph) (n : NodeId) (p : Primitive) (operands : List NodeId) :
    Graph × List NodeId :=
  match (g.memo n).partials? with
  | some ps => (g, ps)
  | none =>
    let (g, ps) := g.extendAll (p.partials Shared.id operands)
    (g.rememberPartials n ps, ps)

/-- Works out a node whose operands are done, by its partial derivatives. -/
def fillByPartials (name : String) (g : Graph) (n : NodeId) (p : Primitive)
    (operands : List NodeId) : Graph :=
  let (g, ps) := g.partialsOf n p operands
  let (g, d) := g.extend (chainRule Shared.id ps (operands.map (g.derivativeOf name)))
  g.remember n name d

/-- Works out a node whose operands are done. A root or a logarithm gets a sum of its own to
differentiate, and a divisor that is a node of its own too: neither leads back to the node,
which would then keep itself alive. -/
def fill (name : String) (g : Graph) (n : NodeId) : Graph :=
  match g.nodes[n]? with
  | some (.operation op operands) =>
    if operands = [] then g.remember n name Shared.zero.id
    else
      match op.primitive.quotient? Shared.id operands with
      | none => g.fillByPartials name n op.primitive operands
      | some (inner, divisor) =>
        let (g, sum) := g.add (.operation (.any inner) operands)
        let g := g.fillByPartials name sum inner operands
        let (g, d) := g.extend (.divide (.leaf (g.derivativeOf name sum)) divisor)
        g.remember n name d
  | _ => g

/-- The operations that have to be worked out before a node's derivative is known, operands first.
The nodes are gone through from the node down, and nothing below a known derivative is looked at. -/
def pending (g : Graph) (name : String) (root : NodeId) : List NodeId :=
  (List.range (root + 1)).foldr (fun n found =>
    if (g.derivative? name n).isNone &&
        (n == root || found.any fun m => (g.operands m).contains n) then
      n :: found
    else found) []

/-- The derivative of a node by a variable, and the graph that holds it.
What is shared is worked out once. -/
def derivative (g : Graph) (name : String) (n : NodeId) : Graph × NodeId :=
  let g := (g.pending name n).foldl (fill name) g
  (g, g.derivativeOf name n)

/-- The derivatives by each of some variables. -/
def derivatives? (g : Graph) (names : List String) (n : NodeId) : Graph × List NodeId :=
  match names with
  | [] => (g, [])
  | name :: names =>
    let (g, d) := g.derivative name n
    let (g, ds) := g.derivatives? names n
    (g, d :: ds)

def gradient (g : Graph) (n : NodeId) : Graph × List NodeId :=
  g.derivatives? (Variable.all.map Variable.name) n

end Fluxion.Graph

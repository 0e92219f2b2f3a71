import Fluxion.Graph

namespace Fluxion.Graph

/-- Adds the nodes met below a node, down to a depth. A node met before is not entered again. -/
def meet (g : Graph) : Nat → Array NodeId → NodeId → Array NodeId
  | 0, met, _ => met
  | depth + 1, met, n =>
    if met.contains n then met else (g.operands n).foldl (g.meet depth) (met.push n)

/-- The nodes below some roots in the order they are first met. No node is as deep as the graph is
large. -/
def numbering (g : Graph) (roots : List NodeId) : Array NodeId := roots.foldl (g.meet g.size) #[]

/-- A graph cut down to what some roots reach, with nodes under their numbers. -/
structure Picture where
  roots : List Nat
  nodes : List Node

def picture (g : Graph) (roots : List NodeId) : Picture :=
  let met := g.numbering roots
  let number (n : NodeId) : Nat := (met.idxOf? n).getD met.size
  ⟨roots.map number, met.toList.filterMap fun n =>
    g.nodes[n]?.map fun
      | .leaf l => .leaf l
      | .operation op ns => .operation op (ns.map number)⟩

end Fluxion.Graph

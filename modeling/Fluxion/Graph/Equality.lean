import Fluxion.Graph

namespace Fluxion

def Leaf.equal : Leaf → Leaf → Bool
  | .constant a, .constant b => a == b
  | .var u, .var v => u = v
  | _, _ => false

namespace Graph

/-- Nodes compared down to a depth. A node equals itself, whatever numbers it is made of; the
numbers of two nodes are compared as numbers, so that none equals a NaN. -/
def equalWithin (g : Graph) : Nat → NodeId → NodeId → Bool
  | 0, m, n => m == n
  | depth + 1, m, n =>
    m == n ||
      match g.nodes[m]?, g.nodes[n]? with
      | some (.leaf a), some (.leaf b) => a.equal b
      | some (.operation o ms), some (.operation p ns) =>
        o.sign == p.sign && ms.length == ns.length &&
          (ms.zip ns).all fun (m, n) => g.equalWithin depth m n
      | _, _ => false

/-- No node is as deep as the graph is large. -/
def equal (g : Graph) (m n : NodeId) : Bool := g.equalWithin g.size m n

end Graph
end Fluxion

import Fluxion.Graph.Derivative
import Fluxion.Proofs.Graph.Growth

namespace Fluxion.Graph

variable {g h : Graph} {n m : Nat} {name other : String} {d : NodeId}

theorem keeps_remember (g : Graph) (n : NodeId) (name : String) (d : NodeId) :
    g.Keeps (g.remember n name d) := .refl g

theorem WellFormed.rememberPartials (hg : g.WellFormed) (n : NodeId) (ps : List NodeId) :
    (g.rememberPartials n ps).WellFormed :=
  ⟨by simp [Graph.rememberPartials, hg.memos_size], hg.older, hg.shared⟩

theorem WellFormed.remember (hg : g.WellFormed) (n : NodeId) (name : String) (d : NodeId) :
    (g.remember n name d).WellFormed :=
  ⟨by simp [Graph.remember, hg.memos_size], hg.older, hg.shared⟩

theorem memo_of_size_le (hg : g.WellFormed) (hn : g.size ≤ n) : g.memo n = .empty := by
  have hs : g.memos.size ≤ n := by rw [hg.memos_size]; exact hn
  simp [memo, Array.getD_eq_getD_getElem?, Array.getElem?_eq_none hs]

theorem memo_modify (hn : n < g.memos.size) (f : Memo → Memo) (m : Nat) :
    ({ g with memos := g.memos.modify n f } : Graph).memo m =
      if n = m then f (g.memo m) else g.memo m := by
  simp only [memo, Array.getD_eq_getD_getElem?, Array.getElem?_modify]
  split
  · rename_i he
    subst m
    simp [hn]
  · rfl

theorem WellFormed.lt_memos (hg : g.WellFormed) (hn : n < g.size) : n < g.memos.size := by
  rw [hg.memos_size]
  exact hn

theorem memo_rememberPartials (hg : g.WellFormed) (hn : n < g.size) (ps : List NodeId) (m : Nat) :
    (g.rememberPartials n ps).memo m =
      if n = m then { g.memo m with partials? := some ps } else g.memo m :=
  memo_modify (hg.lt_memos hn) _ m

theorem memo_remember (hg : g.WellFormed) (hn : n < g.size) (name : String) (d : NodeId) (m : Nat) :
    (g.remember n name d).memo m =
      if n = m then { g.memo m with derivatives := (name, d) :: (g.memo m).derivatives }
      else g.memo m :=
  memo_modify (hg.lt_memos hn) _ m

theorem derivative?_leaf {l : Leaf} (hn : g.nodes[n]? = some (.leaf l)) (name : String) :
    g.derivative? name n = some (l.derivative name).id := by
  simp [derivative?, hn]

theorem derivative?_operation {op : Operator} {ns : List NodeId}
    (hn : g.nodes[n]? = some (.operation op ns)) (name : String) :
    g.derivative? name n = (g.memo n).derivatives.lookup name := by
  simp [derivative?, hn]

/-- A known derivative depends on the node and on the derivatives in its memo. -/
theorem derivative?_congr (hk : g.Keeps h) (hn : n < g.size)
    (hm : (h.memo n).derivatives.lookup name = (g.memo n).derivatives.lookup name) :
    h.derivative? name n = g.derivative? name n := by
  obtain ⟨node, hnode⟩ := exists_node hn
  cases node with
  | leaf l => rw [derivative?_leaf hnode, derivative?_leaf (hk hnode)]
  | operation op ns => rw [derivative?_operation hnode, derivative?_operation (hk hnode), hm]

theorem derivativeOf_eq (hd : g.derivative? name n = some d) : g.derivativeOf name n = d := by
  simp [derivativeOf, hd]

theorem derivative?_eq_some (hd : (g.derivative? name n).isSome) :
    g.derivative? name n = some (g.derivativeOf name n) := by
  obtain ⟨d, hd⟩ := Option.isSome_iff_exists.mp hd
  rw [hd, derivativeOf_eq hd]

end Fluxion.Graph

import Fluxion.Graph

namespace Fluxion

/-- All that a node reads is older than `bound`. -/
def Node.Below (bound : Nat) : Node → Prop
  | .leaf _ => True
  | .operation _ ns => ∀ n : Nat, n ∈ ns → n < bound

theorem Node.Below.mono {node : Node} {a b : Nat} (h : node.Below a) (hab : a ≤ b) :
    node.Below b := by
  cases node with
  | leaf l => trivial
  | operation op ns => exact fun n hn => Nat.lt_of_lt_of_le (h n hn) hab

namespace Graph

variable {g h k : Graph} {n m : Nat}

/-- Nodes read only older ones, each node has a memo, and the shared constants are in their
places. -/
structure WellFormed (g : Graph) : Prop where
  memos_size : g.memos.size = g.nodes.size
  older : ∀ {n : Nat} {node : Node}, g.nodes[n]? = some node → node.Below n
  shared : ∀ c : Shared, g.nodes[c.id]? = some (.leaf (.constant c.value))

theorem initial_wellFormed : initial.WellFormed where
  memos_size := by simp [initial]
  older := by
    intro n node hn
    have hm := Array.mem_of_getElem? hn
    simp only [initial, List.map_toArray, List.mem_toArray, List.mem_map] at hm
    obtain ⟨c, -, rfl⟩ := hm
    trivial
  shared := by intro c; cases c <;> simp [initial, Shared.id]

theorem lt_size {node : Node} (hn : g.nodes[n]? = some node) : n < g.size :=
  (Array.getElem?_eq_some_iff.mp hn).1

theorem exists_node (hn : n < g.size) : ∃ node, g.nodes[n]? = some node :=
  ⟨g.nodes[n], Array.getElem?_eq_getElem hn⟩

theorem WellFormed.operand_lt {op : Operator} {ns : List NodeId} (hg : g.WellFormed)
    (hn : g.nodes[n]? = some (.operation op ns)) (hm : m ∈ ns) : m < n := hg.older hn m hm

theorem WellFormed.operand_lt_size {op : Operator} {ns : List NodeId} (hg : g.WellFormed)
    (hn : g.nodes[n]? = some (.operation op ns)) (hm : m ∈ ns) : m < g.size :=
  Nat.lt_trans (hg.operand_lt hn hm) (lt_size hn)

theorem WellFormed.shared_lt (hg : g.WellFormed) (c : Shared) : c.id < g.size :=
  lt_size (hg.shared c)

private def expandAll (older : Array Expr) (nodes : List Node) : Array Expr :=
  nodes.foldl (fun older node => older.push (node.expr older)) older

/-- Later nodes leave the expressions of the earlier ones alone. -/
private theorem expandAll_getD (nodes : List Node) (older : Array Expr) (hn : n < older.size) :
    (expandAll older nodes).getD n default = older.getD n default := by
  induction nodes generalizing older with
  | nil => rfl
  | cons node nodes ih =>
    have hlt : n < (older.push (node.expr older)).size := by rw [Array.size_push]; omega
    refine (ih _ hlt).trans ?_
    simp [Array.getD_eq_getD_getElem?, Array.getElem?_push, Nat.ne_of_lt hn]

private theorem expr_expandAll (nodes : List Node) {older : Array Expr} {node : Node}
    (hb : node.Below older.size) : node.expr (expandAll older nodes) = node.expr older := by
  cases node with
  | leaf l => rfl
  | operation op ns =>
    exact congrArg _ (List.map_congr_left fun m hm => expandAll_getD nodes older (hb m hm))

private theorem expandAll_eq (nodes : List Node) (older : Array Expr) {i : Nat} {node : Node}
    (hi : nodes[i]? = some node) (hb : node.Below (older.size + i)) :
    (expandAll older nodes).getD (older.size + i) default = node.expr (expandAll older nodes) := by
  induction nodes generalizing older i with
  | nil => simp at hi
  | cons first nodes ih =>
    change (expandAll (older.push (first.expr older)) nodes).getD _ _ =
      node.expr (expandAll (older.push (first.expr older)) nodes)
    cases i with
    | zero =>
      obtain rfl : first = node := by simpa using hi
      have hb' : first.Below (older.push (first.expr older)).size := hb.mono (by simp)
      rw [expandAll_getD _ _ (by simp), expr_expandAll _ hb']
      have hold : first.expr (older.push (first.expr older)) = first.expr older :=
        expr_expandAll [first] hb
      simp [Array.getD_eq_getD_getElem?, hold]
    | succ i =>
      have he : older.size + (i + 1) = (older.push (first.expr older)).size + i := by
        rw [Array.size_push]; omega
      rw [he] at hb ⊢
      exact ih _ (by simpa using hi) hb

theorem WellFormed.expr_eq {node : Node} (hg : g.WellFormed) (hn : g.nodes[n]? = some node) :
    g.expr n = node.expr g.exprs := by
  have h := expandAll_eq g.nodes.toList #[] (by simpa using hn) (by simpa using hg.older hn)
  simpa [expr, exprs, expandAll] using h

theorem WellFormed.expr_leaf {l : Leaf} (hg : g.WellFormed) (hn : g.nodes[n]? = some (.leaf l)) :
    g.expr n = .leaf l := hg.expr_eq hn

theorem WellFormed.expr_operation {op : Operator} {ns : List NodeId} (hg : g.WellFormed)
    (hn : g.nodes[n]? = some (.operation op ns)) : g.expr n = .operation op (ns.map g.expr) :=
  hg.expr_eq hn

theorem WellFormed.expr_shared (hg : g.WellFormed) (c : Shared) : g.expr c.id = .constant c.value :=
  hg.expr_leaf (hg.shared c)

/-- Every node of `g` is the same node in `h`. -/
def Keeps (g h : Graph) : Prop :=
  ∀ ⦃n : Nat⦄ ⦃node : Node⦄, g.nodes[n]? = some node → h.nodes[n]? = some node

theorem Keeps.refl (g : Graph) : g.Keeps g := fun _ _ hn => hn

theorem Keeps.trans (hgh : g.Keeps h) (hhk : h.Keeps k) : g.Keeps k := fun _ _ hn => hhk (hgh hn)

theorem Keeps.size_le (hk : g.Keeps h) : g.size ≤ h.size := by
  cases hs : g.size with
  | zero => exact Nat.zero_le _
  | succ last =>
    obtain ⟨node, hn⟩ := exists_node (g := g) (n := last) (by omega)
    exact lt_size (hk hn)

theorem Keeps.lt (hk : g.Keeps h) (hn : n < g.size) : n < h.size :=
  Nat.lt_of_lt_of_le hn hk.size_le

theorem Keeps.node_of_lt {node : Node} (hk : g.Keeps h) (hn : n < g.size)
    (hnode : h.nodes[n]? = some node) : g.nodes[n]? = some node := by
  obtain ⟨old, hold⟩ := exists_node hn
  rw [hold, ← hk hold, hnode]

theorem Keeps.expr (hk : g.Keeps h) (hg : g.WellFormed) (hh : h.WellFormed) (hn : n < g.size) :
    h.expr n = g.expr n := by
  induction n using Nat.strongRecOn with
  | ind n ih =>
    obtain ⟨node, hnode⟩ := exists_node hn
    cases node with
    | leaf l => rw [hg.expr_leaf hnode, hh.expr_leaf (hk hnode)]
    | operation op ns =>
      rw [hg.expr_operation hnode, hh.expr_operation (hk hnode)]
      refine congrArg _ (List.map_congr_left fun m hm => ?_)
      have hlt := hg.operand_lt hnode hm
      exact ih m hlt (Nat.lt_trans hlt hn)

theorem keeps_add (g : Graph) (node : Node) : g.Keeps (g.add node).1 := by
  intro n old hn
  rw [nodes_add_of_lt node (lt_size hn)]
  exact hn

@[simp] theorem id_add (g : Graph) (node : Node) : (g.add node).2 = g.size := rfl

@[simp] theorem nodes_add_self (g : Graph) (node : Node) :
    (g.add node).1.nodes[g.size]? = some node := by
  simp [add, size]

theorem WellFormed.add {node : Node} (hg : g.WellFormed) (hb : node.Below g.size) :
    (g.add node).1.WellFormed where
  memos_size := by simp [Graph.add, hg.memos_size]
  older := by
    intro n other hn
    rcases Nat.lt_or_ge n g.size with hlt | hge
    · rw [nodes_add_of_lt node hlt] at hn
      exact hg.older hn
    · have hle := lt_size hn
      rw [size_add] at hle
      obtain rfl : n = g.size := by omega
      obtain rfl : node = other := by simpa using hn
      exact hb
  shared := fun c => keeps_add g node (hg.shared c)

/-- Nodes were added, and nothing else. -/
inductive Grown (g : Graph) : Graph → Prop
  | refl : Grown g g
  | add {h : Graph} {node : Node} : Grown g h → node.Below h.size → Grown g (h.add node).1

theorem Grown.trans (hgh : g.Grown h) (hhk : h.Grown k) : g.Grown k := by
  induction hhk with
  | refl => exact hgh
  | add _ hb ih => exact .add ih hb

theorem Grown.keeps (hgh : g.Grown h) : g.Keeps h := by
  induction hgh with
  | refl => exact .refl g
  | add _ _ ih => exact ih.trans (keeps_add _ _)

theorem Grown.wellFormed (hgh : g.Grown h) (hg : g.WellFormed) : h.WellFormed := by
  induction hgh with
  | refl => exact hg
  | add _ hb ih => exact ih.add hb

theorem Grown.expr (hgh : g.Grown h) (hg : g.WellFormed) (hn : n < g.size) : h.expr n = g.expr n :=
  hgh.keeps.expr hg (hgh.wellFormed hg) hn

theorem Grown.map_expr {ns : List NodeId} (hgh : g.Grown h) (hg : g.WellFormed)
    (hns : ∀ n : Nat, n ∈ ns → n < g.size) : ns.map h.expr = ns.map g.expr :=
  List.map_congr_left fun n hn => hgh.expr hg (hns n hn)

@[simp] theorem memo_add (g : Graph) (node : Node) (n : NodeId) :
    (g.add node).1.memo n = g.memo n := by
  simp only [memo, Graph.add, Array.getD_eq_getD_getElem?, Array.getElem?_push]
  split
  · rename_i he
    rw [he, Array.getElem?_eq_none (Nat.le_refl _)]
    rfl
  · rfl

theorem Grown.memo (hgh : g.Grown h) (n : NodeId) : h.memo n = g.memo n := by
  induction hgh with
  | refl => rfl
  | add _ _ ih => rw [memo_add, ih]

end Graph
end Fluxion

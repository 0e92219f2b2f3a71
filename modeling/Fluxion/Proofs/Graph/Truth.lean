import Fluxion.Proofs.Derivative.Rules
import Fluxion.Proofs.Graph.Building
import Fluxion.Proofs.Graph.Memo

namespace Fluxion.Graph

variable {g h : Graph} {n m : Nat} {name other : String} {d : NodeId} {op : Operator}
  {ns ps : List NodeId}

/-- What is remembered about a node is what the rules make of its expression. -/
structure Truthful (g : Graph) : Prop extends WellFormed g where
  partials : ∀ {n : Nat} {op : Operator} {ns ps : List NodeId},
    g.nodes[n]? = some (.operation op ns) → (g.memo n).partials? = some ps →
    (∀ p : Nat, p ∈ ps → p < g.size) ∧
      ps.map g.expr = (op.primitive.partials Expr.shared (ns.map g.expr)).map Term.join
  derivatives : ∀ {n : Nat} {name : String} {d : NodeId}, n < g.size →
    (name, d) ∈ (g.memo n).derivatives → d < g.size ∧ g.expr d = (g.expr n).derivative name

theorem WellFormed.shared_eq (hg : g.WellFormed) : (fun c : Shared => g.expr c.id) = Expr.shared :=
  funext hg.expr_shared

theorem memo_initial (n : Nat) : initial.memo n = .empty := by
  simp only [memo, initial, Array.getD_eq_getD_getElem?, Array.getElem?_replicate]
  split <;> rfl

theorem initial_truthful : initial.Truthful where
  toWellFormed := initial_wellFormed
  partials := by
    intro n op ns ps _ hp
    rw [memo_initial] at hp
    cases hp
  derivatives := by
    intro n name d _ hd
    rw [memo_initial] at hd
    cases hd

/-- A known derivative is right. -/
theorem Truthful.known (hg : g.Truthful) (hn : n < g.size) (hd : g.derivative? name n = some d) :
    d < g.size ∧ g.expr d = (g.expr n).derivative name := by
  obtain ⟨node, hnode⟩ := exists_node hn
  cases node with
  | leaf l =>
    rw [derivative?_leaf hnode, Option.some.injEq] at hd
    subst d
    refine ⟨hg.shared_lt _, ?_⟩
    rw [hg.expr_shared, hg.expr_leaf hnode]
    rfl
  | operation op ns =>
    rw [derivative?_operation hnode] at hd
    obtain ⟨before, after, he, -⟩ := List.lookup_eq_some_iff.mp hd
    exact hg.derivatives hn (by simp [he])

/-- New nodes have nothing to remember and change nothing that is remembered. -/
theorem Truthful.grown (hg : g.Truthful) (hgh : g.Grown h) : h.Truthful where
  toWellFormed := hgh.wellFormed hg.toWellFormed
  partials := by
    intro n op ns ps hn hp
    rw [hgh.memo] at hp
    have hlt : n < g.size := by
      by_contra hge
      rw [memo_of_size_le hg.toWellFormed (Nat.le_of_not_lt hge)] at hp
      cases hp
    have hnode := hgh.keeps.node_of_lt hlt hn
    obtain ⟨hps, he⟩ := hg.partials hnode hp
    refine ⟨fun p hm => hgh.keeps.lt (hps p hm), ?_⟩
    have hold := fun (m : Nat) (hm : m ∈ ns) => hg.operand_lt_size hnode hm
    rw [hgh.map_expr hg.toWellFormed hps, hgh.map_expr hg.toWellFormed hold, he]
  derivatives := by
    intro n name d hn hd
    rw [hgh.memo] at hd
    have hlt : n < g.size := by
      by_contra hge
      rw [memo_of_size_le hg.toWellFormed (Nat.le_of_not_lt hge)] at hd
      cases hd
    obtain ⟨hdlt, he⟩ := hg.derivatives hlt hd
    refine ⟨hgh.keeps.lt hdlt, ?_⟩
    rw [hgh.expr hg.toWellFormed hdlt, hgh.expr hg.toWellFormed hlt, he]

theorem Truthful.rememberPartials (hg : g.Truthful) (hn : g.nodes[n]? = some (.operation op ns))
    (hps : ∀ p : Nat, p ∈ ps → p < g.size)
    (he : ps.map g.expr = (op.primitive.partials Expr.shared (ns.map g.expr)).map Term.join) :
    (g.rememberPartials n ps).Truthful where
  toWellFormed := hg.toWellFormed.rememberPartials n ps
  partials := by
    intro m op' ns' ps' hm hp
    rw [memo_rememberPartials hg.toWellFormed (lt_size hn)] at hp
    split at hp
    · rename_i heq
      subst m
      obtain ⟨rfl, rfl⟩ : op = op' ∧ ns = ns' := by simpa using hn.symm.trans hm
      obtain rfl : ps = ps' := by simpa using hp
      exact ⟨hps, he⟩
    · exact hg.partials hm hp
  derivatives := by
    intro m name d hm hd
    rw [memo_rememberPartials hg.toWellFormed (lt_size hn)] at hd
    split at hd
    · exact hg.derivatives hm hd
    · exact hg.derivatives hm hd

theorem Truthful.remember (hg : g.Truthful) (hn : n < g.size) (hd : d < g.size)
    (he : g.expr d = (g.expr n).derivative name) : (g.remember n name d).Truthful where
  toWellFormed := hg.toWellFormed.remember n name d
  partials := by
    intro m op ns ps hm hp
    rw [memo_remember hg.toWellFormed hn] at hp
    split at hp
    · exact hg.partials hm hp
    · exact hg.partials hm hp
  derivatives := by
    intro m other d' hm hd'
    rw [memo_remember hg.toWellFormed hn] at hd'
    split at hd'
    · rename_i heq
      subst m
      rcases List.mem_cons.mp hd' with heq | hd'
      · obtain ⟨rfl, rfl⟩ : other = name ∧ d' = d := by simpa using heq
        exact ⟨hd, he⟩
      · exact hg.derivatives hm hd'
    · exact hg.derivatives hm hd'

end Fluxion.Graph

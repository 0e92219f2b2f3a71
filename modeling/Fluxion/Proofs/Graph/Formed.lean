import Fluxion.Proofs.Formed
import Fluxion.Proofs.Graph.Differentiation

namespace Fluxion.Graph

variable {g : Graph} {α : Type} {n : Nat} {name : String} {op : Operator} {ns : List NodeId}

def Formed (g : Graph) : Prop :=
  ∀ ⦃n : Nat⦄ ⦃op : Operator⦄ ⦃ns : List NodeId⦄,
    g.nodes[n]? = some (.operation op ns) → op.Takes ns.length

theorem initial_formed : initial.Formed := by
  intro n op ns hn
  have hm := Array.mem_of_getElem? hn
  simp [initial] at hm

theorem Formed.add {node : Node} (hg : g.Formed)
    (hnode : ∀ op ns, node = .operation op ns → op.Takes ns.length) :
    (g.add node).1.Formed := by
  intro n op ns hn
  rcases Nat.lt_or_ge n g.size with hlt | hge
  · rw [nodes_add_of_lt node hlt] at hn
    exact hg hn
  · have hle := lt_size hn
    rw [size_add] at hle
    obtain rfl : n = g.size := by omega
    exact hnode op ns (by simpa using hn)

theorem Formed.add_leaf (hg : g.Formed) (l : Leaf) : (g.add (.leaf l)).1.Formed := hg.add (by simp)

theorem Formed.add_operation (hg : g.Formed) (hop : op.Takes ns.length) :
    (g.add (.operation op ns)).1.Formed := by
  refine hg.add fun op' ns' h => ?_
  obtain ⟨rfl, rfl⟩ := Node.operation.inj h
  exact hop

theorem length_buildAll (place : Graph → α → Graph × NodeId) (g : Graph)
    (ts : List (Term α)) : (g.buildAll place ts).2.length = ts.length := by
  induction ts generalizing g with
  | nil => rfl
  | cons t ts ih => simp [buildAll, ih]

theorem Formed.buildAll {place : Graph → α → Graph × NodeId} {ts : List (Term α)}
    (built : ∀ t ∈ ts, ∀ g : Graph, g.Formed → (g.build place t).1.Formed) (hg : g.Formed) :
    (g.buildAll place ts).1.Formed := by
  induction ts generalizing g with
  | nil => exact hg
  | cons t ts ih =>
    exact ih (fun u hu => built u (List.mem_cons_of_mem _ hu)) (built t List.mem_cons_self g hg)

theorem Formed.build {place : Graph → α → Graph × NodeId} {t : Term α}
    (placed : ∀ (g : Graph) (a : α), g.Formed → (place g a).1.Formed) (ht : t.Formed)
    (hg : g.Formed) : (g.build place t).1.Formed := by
  induction ht generalizing g with
  | leaf a => exact placed g a hg
  | @operation op ts hop hts ih =>
    have hall : (g.buildAll place ts).1.Formed := hg.buildAll fun t ht g hg => ih t ht hg
    refine hall.add_operation ?_
    rwa [length_buildAll]

theorem Formed.insert {e : Expr} (he : e.Formed) (hg : g.Formed) : (g.insert e).1.Formed :=
  hg.build (fun _ l hg => hg.add_leaf l) he

theorem Formed.extend {t : Term NodeId} (ht : t.Formed) (hg : g.Formed) : (g.extend t).1.Formed :=
  hg.build (fun _ _ hg => hg) ht

theorem Formed.extendAll {ts : List (Term NodeId)} (hts : ∀ t ∈ ts, t.Formed) (hg : g.Formed) :
    (g.extendAll ts).1.Formed :=
  hg.buildAll fun t ht _ hg => hg.extend (hts t ht)

theorem Formed.partialsOf (hg : g.Formed) (n : NodeId) (p : Primitive) (ns : List NodeId) :
    (g.partialsOf n p ns).1.Formed := by
  unfold Graph.partialsOf
  split
  · exact hg
  · exact hg.extendAll fun t ht => Primitive.formed_partials ht

theorem Formed.fillByPartials (hg : g.Formed) (name : String) (n : NodeId) (p : Primitive)
    (ns : List NodeId) : (g.fillByPartials name n p ns).Formed :=
  (hg.partialsOf n p ns).extend (formed_chainRule _ _)

theorem Formed.fill (hg : g.Formed) (name : String) (n : NodeId) : (g.fill name n).Formed := by
  unfold Graph.fill
  split
  · rename_i op ns _
    split
    · exact hg
    · split
      · exact hg.fillByPartials name n op.primitive ns
      · rename_i inner divisor hq
        obtain ⟨hdivisor, hinner⟩ := Primitive.formed_quotient hq
        have hsum : (g.add (.operation (.any inner) ns)).1.Formed :=
          hg.add_operation (Operator.takes_any (by simp [hinner, Arity.accepts, Arity.fixed?]))
        exact (hsum.fillByPartials name _ inner ns).extend ((Term.Formed.leaf _).divide hdivisor)
  · exact hg

theorem Formed.derivative (hg : g.Formed) (name : String) (n : NodeId) :
    (g.derivative name n).1.Formed := by
  change (List.foldl (Graph.fill name) g (g.pending name n)).Formed
  generalize g.pending name n = ps
  induction ps generalizing g with
  | nil => exact hg
  | cons m ps ih => exact ih (hg.fill name m)

theorem Formed.derivatives? (hg : g.Formed) (names : List String) (n : NodeId) :
    (g.derivatives? names n).1.Formed := by
  induction names generalizing g with
  | nil => exact hg
  | cons name names ih => exact ih (hg.derivative name n)

theorem Formed.expr (hg : g.Formed) (hw : g.WellFormed) (hn : n < g.size) : (g.expr n).Formed := by
  induction n using Nat.strongRecOn with
  | ind n ih =>
    obtain ⟨node, hnode⟩ := exists_node hn
    cases node with
    | leaf l =>
      rw [hw.expr_leaf hnode]
      exact .leaf l
    | operation op ns =>
      rw [hw.expr_operation hnode]
      refine .operation (by simpa using hg hnode) fun e he => ?_
      obtain ⟨m, hm, rfl⟩ := List.mem_map.mp he
      exact ih m (hw.operand_lt hnode hm) (hw.operand_lt_size hnode hm)

end Fluxion.Graph

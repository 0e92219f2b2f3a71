import Mathlib.Algebra.BigOperators.Group.Finset.Basic
import Mathlib.Algebra.Order.BigOperators.Group.Finset
import Mathlib.Data.Nat.Cast.Basic
import Fluxion.Proofs.Graph.Footprint

namespace Fluxion

variable {α : Type} {shared : Shared → α} {p inner : Primitive} {as : List α}
  {divisor : Term α}

theorem length_operators_foldl_add (t : Term α) (ts : List (Term α)) :
    (ts.foldl Term.add t).operators.length =
      t.operators.length + (ts.flatMap Term.operators).length + ts.length := by
  induction ts generalizing t with
  | nil => simp
  | cons u ts ih =>
    rw [List.foldl_cons, ih]
    simp [Term.add]
    omega

theorem length_operators_chainRule_le (shared : Shared → α) (ps ds : List α) :
    (chainRule shared ps ds).operators.length ≤ 2 * ds.length - 1 := by
  have hproducts : ∀ t ∈ List.zipWith (fun p d => Term.multiply (.leaf p) (.leaf d)) ps ds,
      t.operators.length = 1 := by
    intro t ht
    obtain ⟨i, hi⟩ := List.mem_iff_getElem?.mp ht
    obtain ⟨p, d, -, -, rfl⟩ := List.getElem?_zipWith_eq_some.mp hi
    rfl
  have hlength :
      (List.zipWith (fun p d => Term.multiply (.leaf p) (.leaf d)) ps ds).length ≤ ds.length := by
    simp
  unfold chainRule
  split
  · simp
  · rename_i t ts hz
    rw [hz] at hproducts hlength
    have hrest : (ts.flatMap Term.operators).length = ts.length := by
      rw [List.length_flatMap, List.map_congr_left fun u hu =>
        hproducts u (List.mem_cons_of_mem _ hu)]
      simp
    rw [length_operators_foldl_add, hproducts t List.mem_cons_self, hrest]
    rw [List.length_cons] at hlength
    omega

/-- One operation for each operand, but for a quotient, which takes two more. -/
theorem Primitive.length_operators_partials_le (shared : Shared → α) (p : Primitive)
    (as : List α) :
    ((p.partials shared as).flatMap Term.operators).length ≤
      as.length + if p = divide then 2 else 0 := by
  unfold partials
  split <;> simp [Term.divide, Term.negate, Term.multiply, List.length_flatMap, Function.comp_def]

theorem Primitive.length_operators_quotient_le
    (hq : p.quotient? shared as = some (inner, divisor)) :
    inner ≠ divide ∧ divisor.operators.length ≤ 2 := by
  have hleaves : (as.map Term.leaf).flatMap Term.operators = [] := by simp [List.flatMap_eq_nil_iff]
  unfold quotient? at hq
  split at hq <;> simp only [Option.some.injEq, Prod.mk.injEq, reduceCtorEq] at hq <;>
    obtain ⟨rfl, rfl⟩ := hq <;> simp [Term.multiply, hleaves]

namespace Graph

open Relation

variable {g h : Graph} {n m root first : Nat} {name : String} {ps ns : List NodeId}

theorem length_laidAll_nodes {ts : List (Term NodeId)}
    (hts : ∀ t ∈ ts, ∀ first, (laid first t).1.length = t.operators.length) (first : Nat) :
    (laidAll first ts).1.length = (ts.flatMap Term.operators).length := by
  induction ts generalizing first with
  | nil => rfl
  | cons t ts ih =>
    simp only [laidAll, List.length_append, List.flatMap_cons]
    rw [hts t List.mem_cons_self, ih fun u hu => hts u (List.mem_cons_of_mem _ hu)]

/-- A term takes one node for each of its operations. -/
theorem length_laid_nodes (first : Nat) (t : Term NodeId) :
    (laid first t).1.length = t.operators.length := by
  induction t using Term.induct generalizing first with
  | onLeaf n => rfl
  | onOperation op ts ih => simp [laid, length_laidAll_nodes ih]

theorem size_extend (g : Graph) (t : Term NodeId) :
    (g.extend t).1.size = g.size + t.operators.length := by
  rw [extend_eq, size_append, length_laid_nodes]

theorem size_extendAll (g : Graph) (ts : List (Term NodeId)) :
    (g.extendAll ts).1.size = g.size + (ts.flatMap Term.operators).length := by
  rw [extendAll_eq, size_append, length_laidAll_nodes fun t _ first => length_laid_nodes first t]

@[simp] theorem size_remember (g : Graph) (n : NodeId) (name : String) (d : NodeId) :
    (g.remember n name d).size = g.size := rfl

theorem size_partialsOf_le (g : Graph) (n : NodeId) (p : Primitive) (ns : List NodeId) :
    (g.partialsOf n p ns).1.size ≤ g.size + ns.length + if p = .divide then 2 else 0 := by
  unfold partialsOf
  split
  · exact Nat.le_trans (Nat.le_add_right _ ns.length) (Nat.le_add_right _ _)
  · rw [size_rememberPartials, size_extendAll, Nat.add_assoc]
    exact Nat.add_le_add_left (p.length_operators_partials_le Shared.id ns) g.size

theorem size_fillByPartials_le (g : Graph) (name : String) (n : NodeId) (p : Primitive)
    (ns : List NodeId) :
    (g.fillByPartials name n p ns).size ≤
      g.size + (ns.length + (2 * ns.length - 1)) + if p = .divide then 2 else 0 := by
  have hpartials := g.size_partialsOf_le n p ns
  simp only [fillByPartials, size_remember, size_extend]
  generalize g.partialsOf n p ns = r at hpartials ⊢
  have hchain := length_operators_chainRule_le Shared.id r.2 (ns.map (r.1.derivativeOf name))
  rw [List.length_map] at hchain
  omega

/-- Nothing is added for an operation without operands. -/
theorem size_fill_le (g : Graph) (name : String) (n : NodeId) :
    (g.fill name n).size ≤
      g.size + if g.operands n = [] then 0 else 3 * (g.operands n).length + 3 := by
  unfold fill
  split
  · rename_i op ns hn
    rw [operands_eq hn]
    split
    · simp
    · rename_i hne
      have hpos := List.length_pos_iff.mpr hne
      split
      · have hfill := g.size_fillByPartials_le name n op.primitive ns
        split at hfill <;> omega
      · rename_i inner divisor hq
        obtain ⟨hinner, hdivisor⟩ := Primitive.length_operators_quotient_le hq
        have hfill :=
          (g.add (.operation (.any inner) ns)).1.size_fillByPartials_le name g.size inner ns
        rw [if_neg hinner, size_add] at hfill
        simp only [size_remember, size_extend, id_add]
        simp [Term.divide]
        omega
  · exact Nat.le_add_right _ _

open Classical in
/-- The operations with operands, at a node or below it, whose derivative is not yet known. -/
noncomputable def due (g : Graph) (name : String) (root : NodeId) : Finset NodeId :=
  {n ∈ Finset.range g.size | ReflTransGen g.Uses root n ∧ g.operands n ≠ [] ∧
    (g.memo n).derivatives.lookup name = none}

theorem mem_due : n ∈ g.due name root ↔ ReflTransGen g.Uses root n ∧ g.operands n ≠ [] ∧
    (g.memo n).derivatives.lookup name = none := by
  simp only [due, Finset.mem_filter, Finset.mem_range]
  refine and_iff_right_of_imp ?_
  rintro ⟨-, hne, -⟩
  obtain ⟨m, hm⟩ := List.exists_mem_of_ne_nil _ hne
  obtain ⟨op, ns, hn, -⟩ := mem_operands.mp hm
  exact lt_size hn

theorem Ready.size_foldl_le (hr : Ready g name ps) (hg : g.Truthful) :
    (ps.foldl (Graph.fill name) g).size ≤
      g.size +
        (ps.map fun n => if g.operands n = [] then 0 else 3 * (g.operands n).length + 3).sum := by
  induction ps generalizing g with
  | nil => simp
  | cons n ps ih =>
    obtain ⟨hadv, -, hrest⟩ := hr.fill hg
    have hfirst := g.size_fill_le name n
    have hps := ih hrest hadv.truthful
    rw [List.map_congr_left fun m hm => by
      rw [hadv.keeps.operands (hr.lt m (List.mem_cons_of_mem _ hm))]] at hps
    rw [List.foldl_cons, List.map_cons, List.sum_cons]
    omega

/-- Every operation is paid for once. -/
theorem size_derivative_le (hg : g.Truthful) (hn : n < g.size) (name : String) :
    (g.derivative name n).1.size ≤
      g.size + ∑ m ∈ g.due name n, (3 * (g.operands m).length + 3) := by
  have hr : Ready g name (g.pending name n) := pending_ready hg.toWellFormed hn
  have hnodup : (g.pending name n).Nodup := hr.sorted.imp Nat.ne_of_lt
  have hdue : {m ∈ (g.pending name n).toFinset | ¬ g.operands m = []} ⊆ g.due name n := by
    intro m hm
    obtain ⟨hm, hne⟩ := Finset.mem_filter.mp hm
    have hm := List.mem_toFinset.mp hm
    obtain ⟨o, ho⟩ := List.exists_mem_of_ne_nil _ hne
    obtain ⟨op, ns, hnode, -⟩ := mem_operands.mp ho
    have hunknown := hr.unknown m hm
    rw [derivative?_operation hnode] at hunknown
    exact mem_due.mpr ⟨below_of_mem_pending hm, hne, hunknown⟩
  have hsize := hr.size_foldl_le hg
  rw [← List.sum_toFinset _ hnodup] at hsize
  refine hsize.trans (Nat.add_le_add_left ?_ _)
  calc
    ∑ m ∈ (g.pending name n).toFinset,
        (if g.operands m = [] then 0 else 3 * (g.operands m).length + 3)
      = ∑ m ∈ (g.pending name n).toFinset with ¬ g.operands m = [],
          (3 * (g.operands m).length + 3) := by
        rw [Finset.sum_filter]
        exact Finset.sum_congr rfl fun m _ => (ite_not ..).symm
    _ ≤ ∑ m ∈ g.due name n, (3 * (g.operands m).length + 3) :=
      Finset.sum_le_sum_of_subset hdue

end Graph
end Fluxion

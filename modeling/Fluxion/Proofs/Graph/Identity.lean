import Fluxion.Proofs.Graph.Fitting

namespace Fluxion

variable {α : Type}

theorem exists_operation_foldl_add (op : Operator) (ts us : List (Term α)) :
    ∃ op' ts', us.foldl Term.add (.operation op ts) = .operation op' ts' := by
  induction us generalizing op ts with
  | nil => exact ⟨op, ts, rfl⟩
  | cons u us ih => exact ih _ _

theorem exists_operation_chainRule (shared : Shared → α) {ps ds : List α} (hps : ps ≠ [])
    (hds : ds ≠ []) : ∃ op ts, chainRule shared ps ds = .operation op ts := by
  obtain ⟨p, ps, rfl⟩ := List.exists_cons_of_ne_nil hps
  obtain ⟨d, ds, rfl⟩ := List.exists_cons_of_ne_nil hds
  exact exists_operation_foldl_add _ _ _

namespace Graph

variable {g h i : Graph} {n m d first : Nat} {name other : String} {op : Operator}
  {ns ps ds : List NodeId} {k : Task}

/-- The node of an operation is the last one it is built into. -/
theorem exists_laid_operation (first : Nat) (op : Operator) (ts : List (Term NodeId)) :
    ∃ (nodes : List Node) (d : Nat), laid first (.operation op ts) = (nodes, d) ∧
      first ≤ d ∧ d + 1 = first + nodes.length := by
  refine ⟨_, _, rfl, Nat.le_add_right _ _, ?_⟩
  rw [List.length_append, List.length_singleton, Nat.add_assoc]

theorem exists_laid_chainRule (first : Nat) (hps : ps ≠ []) (hds : ds ≠ []) :
    ∃ (nodes : List Node) (d : Nat), laid first (chainRule Shared.id ps ds) = (nodes, d) ∧
      first ≤ d ∧ d + 1 = first + nodes.length := by
  obtain ⟨op, ts, hchain⟩ := exists_operation_chainRule Shared.id hps hds
  rw [hchain]
  exact exists_laid_operation first op ts

theorem chainBlock_answer (first : Nat) (hps : ps ≠ []) (hds : ds ≠ []) :
    ∃ d : Nat, (chainBlock first ps ds).answer = [d] ∧ first ≤ d ∧
      d + 1 = first + (chainBlock first ps ds).nodes.length := by
  obtain ⟨nodes, d, hlaid, hle, hlast⟩ := exists_laid_chainRule first hps hds
  exact ⟨d, by simp only [chainBlock, hlaid], hle, by simp only [chainBlock, hlaid, hlast]⟩

/-- The derivative of the sum is a node before the last one. -/
theorem quotientBlock_answer {p inner : Primitive} {divisor : Term NodeId}
    (hq : p.quotient? Shared.id ns = some (inner, divisor)) (hne : ns ≠ []) (hds : ds ≠ [])
    (first : Nat) (name : String) :
    ∃ d q : Nat, (quotientBlock first name inner divisor ns ds).memo.derivatives = [(name, d)] ∧
      (quotientBlock first name inner divisor ns ds).answer = [q] ∧ first ≤ d ∧ d < q ∧
      q + 1 = first + (quotientBlock first name inner divisor ns ds).nodes.length := by
  obtain ⟨partials, ps, hpartials⟩ : ∃ partials ps,
      laidAll (first + 1) (inner.partials Shared.id ns) = (partials, ps) := ⟨_, _, rfl⟩
  have hps : ps ≠ [] := by
    have hlength := length_laidAll (first + 1) (inner.partials Shared.id ns)
    rw [hpartials, Primitive.length_partials_inner hq] at hlength
    rwa [← List.length_pos_iff, hlength, List.length_pos_iff]
  obtain ⟨products, d, hproducts, hled, hlastd⟩ :=
    exists_laid_chainRule (first + 1 + partials.length) hps hds
  obtain ⟨quotient, q, hquotient, hleq, hlastq⟩ := exists_laid_operation
    (first + 1 + partials.length + products.length) (.any .divide) [.leaf d, divisor]
  simp only [quotientBlock, Term.divide, hpartials, hproducts, hquotient]
  refine ⟨d, q, rfl, rfl, by omega, by omega, ?_⟩
  simp only [List.length_cons, List.length_append]
  omega

/-- The derivative of an operation over operands is known to be a node. -/
def Derives (g : Graph) (n : NodeId) (name : String) (d : NodeId) : Prop :=
  g.operands n ≠ [] ∧ g.answer? (.derivative n name) = some [d]

theorem derives_iff (hne : g.operands n ≠ []) :
    g.Derives n name d ↔ g.derivative? name n = some d := by
  obtain ⟨m, hm⟩ := List.exists_mem_of_ne_nil _ hne
  obtain ⟨op, ns, hn, -⟩ := mem_operands.mp hm
  simp [Derives, hne, answer?, derivative?_operation hn]

theorem Derives.of_answer? (hd : h.Derives n name d) (hg : g.WellFormed) (hgh : g.Keeps h)
    (ha : g.answer? (.derivative n name) = some [d]) : g.Derives n name d := by
  have hn : n < g.size := lt_of_answer? hg ha
  rw [Derives, hgh.operands hn] at hd
  exact ⟨hd.1, ha⟩

theorem Fitting.ne_nil (hg : g.Fitting) (hps : g.answer? (.partials n) = some ps) : ps ≠ [] := by
  obtain ⟨⟨op, ns, hn, hne, -⟩, hlength⟩ := hg hps
  rw [operands_eq hn] at hlength
  rwa [← List.length_pos_iff, hlength, List.length_pos_iff]

/-- A task makes at most two derivatives known, and both are new: that of its own operation is the
last node of all, and that of a sum it adds is an earlier one. -/
theorem Adds.derives_cases (ha : g.Adds k h) (hw : g.WellFormed) (hfitting : g.Fitting)
    (hk : g.Supplies k) (hd : h.Derives n name d) :
    g.Derives n name d ∨ ∃ m, k = .derivative m name ∧ g.size ≤ d ∧
      (n = m ∧ d + 1 = h.size ∨ n = g.size ∧ d + 1 < h.size) := by
  obtain ⟨b, hb⟩ := hk
  have hsize := ha.size
  rcases ha.answer?_cases hd.2 with hold | ⟨rfl, hanswer⟩ | hfirst
  · exact .inl (hd.of_answer? hw ha.keeps hold)
  · refine .inr ⟨n, rfl, ?_⟩
    rw [hb.block_eq] at hsize hanswer
    cases hb with
    | zero hn => exact absurd (operands_eq (ha.keeps hn)) hd.1
    | chain hn hne hq hps hknown =>
      obtain ⟨e, he, hle, hlast⟩ :=
        chainBlock_answer g.size (hfitting.ne_nil hps) (mt List.map_eq_nil_iff.mp hne)
      obtain rfl := List.singleton_injective (he.symm.trans hanswer)
      exact ⟨hle, .inl ⟨rfl, hlast.trans hsize.symm⟩⟩
    | quotient hn hne hq hknown =>
      obtain ⟨e, q, -, hq', hle, hlt, hlast⟩ :=
        quotientBlock_answer hq hne (mt List.map_eq_nil_iff.mp hne) g.size name
      obtain rfl := List.singleton_injective (hq'.symm.trans hanswer)
      exact ⟨Nat.le_trans hle (Nat.le_of_lt hlt), .inl ⟨rfl, hlast.trans hsize.symm⟩⟩
  · -- The node is a sum that the block starts with, and the block remembers its one derivative.
    obtain ⟨m, _, ns, inner, divisor, name', rfl, hn, hne, hq, -, -, hmemo⟩ :=
      hb.sum_of_answer ha hfirst (Option.isSome_of_eq_some hd.2)
    have hds : ns.map (g.derivativeOf name') ≠ [] := mt List.map_eq_nil_iff.mp hne
    obtain ⟨e, q, hderivatives, -, hle, hlt, hlast⟩ :=
      quotientBlock_answer hq hne hds g.size name'
    obtain rfl : n = g.size := hfirst
    have hlookup : List.lookup name [(name', e)] = some d := by
      rw [← hderivatives, ← hmemo]
      simpa [answer?] using hd.2
    obtain ⟨rfl, rfl⟩ : name = name' ∧ e = d := by
      by_cases hname : name = name'
      · simpa [hname] using hlookup
      · simp [List.lookup_cons, beq_false_of_ne hname] at hlookup
    rw [block_quotient hn hne hq] at hsize
    exact .inr ⟨m, rfl, hle, .inr ⟨rfl, by omega⟩⟩

/-- A later graph, in which a derivative that was not known before is a node that was not there
before. -/
structure Since (g h : Graph) : Prop where
  fitting : h.Fitting
  size_le : g.size ≤ h.size
  derives : ∀ {n : Nat} {name : String} {d : Nat}, h.Derives n name d →
    g.Derives n name d ∨ g.size ≤ d

theorem Since.refl (hg : g.Fitting) : g.Since g := ⟨hg, Nat.le_refl _, .inl⟩

theorem Derives.of_grown (hd : h.Derives n name d) (hg : g.WellFormed) (hgh : g.Grown h) :
    g.Derives n name d :=
  hd.of_answer? hg hgh.keeps ((hgh.answer? _).symm.trans hd.2)

theorem Since.grown (hs : g.Since h) (hh : h.WellFormed) (hhi : h.Grown i) : g.Since i where
  fitting := hs.fitting.grown hhi
  size_le := Nat.le_trans hs.size_le hhi.keeps.size_le
  derives hd := hs.derives (hd.of_grown hh hhi)

theorem Since.adds (hs : g.Since h) (hh : h.WellFormed) (hk : h.Supplies k) (hfits : h.Fits k)
    (ha : h.Adds k i) : g.Since i where
  fitting := hs.fitting.adds hk hfits ha
  size_le := Nat.le_trans hs.size_le ha.keeps.size_le
  derives hd := by
    rcases ha.derives_cases hh hs.fitting hk hd with hd | ⟨_, -, hle, -⟩
    · exact hs.derives hd
    · exact .inr (Nat.le_trans hs.size_le hle)

theorem Since.evolves (hs : g.Since h) (hh : h.Truthful) (hf : h.Formed) (hhi : h.Evolves i) :
    g.Since i :=
  hhi.invariant hh hf (fun hhi hs => hs.grown hh.toWellFormed hhi)
    (fun hh hk hfits ha hs => hs.adds hh hk hfits ha) hs

/-- No node is the derivative of two operations over operands, or of one by two variables. Of
operations over none, only zero is. -/
structure Distinct (g : Graph) : Prop where
  fitting : g.Fitting
  lt : ∀ {n : Nat} {name : String} {d : Nat}, g.Derives n name d → d < g.size
  unique : ∀ {n m : Nat} {name other : String} {d : Nat}, g.Derives n name d →
    g.Derives m other d → n = m ∧ name = other
  zero : ∀ {n : Nat} {op : Operator} {name : String} {answer : List NodeId},
    g.nodes[n]? = some (.operation op []) → g.answer? (.derivative n name) = some answer →
    answer = [Shared.zero.id]

theorem initial_distinct : initial.Distinct where
  fitting := initial_fitting
  lt hd := by simp [Derives, answer?, memo_initial, Memo.empty] at hd
  unique hd := by simp [Derives, answer?, memo_initial, Memo.empty] at hd
  zero _ ha := by simp [answer?, memo_initial, Memo.empty] at ha

theorem Distinct.grown (hg : g.Distinct) (hw : g.WellFormed) (hgh : g.Grown h) : h.Distinct where
  fitting := hg.fitting.grown hgh
  lt hd := hgh.keeps.lt (hg.lt (hd.of_grown hw hgh))
  unique hd he := hg.unique (hd.of_grown hw hgh) (he.of_grown hw hgh)
  zero {n op name answer} hn ha := by
    rw [hgh.answer?] at ha
    exact hg.zero (hgh.keeps.node_of_lt (lt_of_answer? hw ha) hn) ha

theorem Distinct.adds (hg : g.Distinct) (hw : g.WellFormed) (hk : g.Supplies k) (hfits : g.Fits k)
    (ha : g.Adds k h) : h.Distinct where
  fitting := hg.fitting.adds hk hfits ha
  lt hd := by
    rcases ha.derives_cases hw hg.fitting hk hd with hd |
      ⟨_, -, -, ⟨-, hlast⟩ | ⟨-, hlt⟩⟩
    · exact ha.keeps.lt (hg.lt hd)
    · omega
    · omega
  unique {n m name other d} hd he := by
    rcases ha.derives_cases hw hg.fitting hk hd with hold | ⟨o, hko, hle, hn⟩ <;>
      rcases ha.derives_cases hw hg.fitting hk he with hold' | ⟨o', hko', hle', hm⟩
    · exact hg.unique hold hold'
    · exact absurd (hg.lt hold) (Nat.not_lt.mpr hle')
    · exact absurd (hg.lt hold') (Nat.not_lt.mpr hle)
    · -- Both are of one task, and of its two derivatives only one is the last node.
      obtain ⟨rfl, rfl⟩ := Task.derivative.inj (hko.symm.trans hko')
      refine ⟨?_, rfl⟩
      obtain ⟨hn, hlast⟩ | ⟨hn, hlt⟩ := hn <;>
        obtain ⟨hm, hlast'⟩ | ⟨hm, hlt'⟩ := hm
      · exact hn.trans hm.symm
      · omega
      · omega
      · exact hn.trans hm.symm
  zero {n op name answer} hn hanswer := by
    obtain ⟨b, hb⟩ := hk
    rcases ha.answer?_cases hanswer with hold | ⟨rfl, hblock⟩ | hfirst
    · exact hg.zero (ha.keeps.node_of_lt (lt_of_answer? hw hold) hn) hold
    · have hold : g.nodes[n]? = some (.operation op []) := ha.keeps.node_of_lt hfits.lt hn
      rw [block_nil hold] at hblock
      exact hblock.symm
    · obtain ⟨_, _, ns, _, _, _, -, -, hne, -, -, hsum, -⟩ :=
        hb.sum_of_answer ha hfirst (Option.isSome_of_eq_some hanswer)
      obtain rfl : n = g.size := hfirst
      obtain ⟨-, rfl⟩ := Node.operation.inj (Option.some.inj (hsum.symm.trans hn))
      exact absurd rfl hne

theorem Distinct.evolves (hg : g.Distinct) (ht : g.Truthful) (hf : g.Formed) (hgh : g.Evolves h) :
    h.Distinct :=
  hgh.invariant ht hf (fun hgh hg => hg.grown ht.toWellFormed hgh)
    (fun hw hk hfits ha hg => hg.adds hw hk hfits ha) hg

/-- Without operands, a node has no derivative but zero and one. -/
theorem Distinct.shared (hg : g.Distinct) (hn : n < g.size) (hnil : g.operands n = [])
    (hd : g.derivative? name n = some d) : d = Shared.zero.id ∨ d = Shared.one.id := by
  obtain ⟨node, hnode⟩ := exists_node hn
  cases node with
  | leaf l =>
    rw [derivative?_leaf hnode] at hd
    obtain rfl := Option.some.inj hd
    cases l with
    | constant value => exact .inl rfl
    | var v =>
      rw [Leaf.derivative]
      split
      · exact .inr rfl
      · exact .inl rfl
  | operation op ns =>
    obtain rfl : ns = [] := (operands_eq hnode).symm.trans hnil
    rw [derivative?_operation hnode] at hd
    have hanswer : g.answer? (.derivative n name) = some [d] := by simp [answer?, hd]
    exact .inl (List.singleton_injective (hg.zero hnode hanswer))

end Graph
end Fluxion

import Fluxion.Proofs.Graph.Truth

namespace Fluxion

/-- A derivative by the chain rule, from what the operands of an operation are. -/
theorem Expr.derivative_chain {name : String} {op : Operator} {ts : List Expr} (hts : ts ≠ [])
    (hq : op.primitive.quotient? Expr.shared ts = none) :
    derivative name (.operation op ts) = chain op.primitive ts (ts.map (derivative name)) := by
  simp [derivative_operation, derivativeOf, hts, hq]

theorem Expr.derivative_quotient {name : String} {op : Operator} {ts : List Expr}
    {inner : Primitive} {divisor : Term Expr} (hts : ts ≠ [])
    (hq : op.primitive.quotient? Expr.shared ts = some (inner, divisor)) :
    derivative name (.operation op ts) =
      Term.divide (chain inner ts (ts.map (derivative name))) divisor.join := by
  simp [derivative_operation, derivativeOf, hts, hq]

/-- The sums that quotients are made from are worked out by the chain rule. -/
theorem Primitive.quotient?_inner {α : Type} {shared : Shared → α} {p inner : Primitive}
    {as : List α} {divisor : Term α} (hq : p.quotient? shared as = some (inner, divisor))
    (bs : List β) (shared' : Shared → β) : inner.quotient? shared' bs = none := by
  unfold quotient? at hq
  split at hq <;> simp only [Option.some.injEq, Prod.mk.injEq, reduceCtorEq] at hq
  all_goals
    obtain ⟨rfl, -⟩ := hq
    rfl

namespace Graph

variable {g h k : Graph} {n m : Nat} {name : String} {d : NodeId} {op : Operator}
  {ns ps : List NodeId}

/-- Work that leads up to a new entry: no derivative that was remembered is lost, and none
is added to a node that was there. -/
structure Prepares (g h : Graph) : Prop where
  truthful : h.Truthful
  keeps : g.Keeps h
  derivatives : ∀ m : Nat, m < g.size → (h.memo m).derivatives = (g.memo m).derivatives

theorem Prepares.trans (hgh : g.Prepares h) (hhk : h.Prepares k) : g.Prepares k :=
  ⟨hhk.truthful, hgh.keeps.trans hhk.keeps, fun m hm =>
    (hhk.derivatives m (hgh.keeps.lt hm)).trans (hgh.derivatives m hm)⟩

theorem Truthful.prepares (hg : g.Truthful) (hgh : g.Grown h) : g.Prepares h :=
  ⟨hg.grown hgh, hgh.keeps, fun m _ => by rw [hgh.memo]⟩

theorem Prepares.expr (hgh : g.Prepares h) (hg : g.Truthful) (hn : n < g.size) :
    h.expr n = g.expr n :=
  hgh.keeps.expr hg.toWellFormed hgh.truthful.toWellFormed hn

theorem Prepares.map_expr (hgh : g.Prepares h) (hg : g.Truthful)
    (hns : ∀ n : Nat, n ∈ ns → n < g.size) : ns.map h.expr = ns.map g.expr :=
  List.map_congr_left fun n hn => hgh.expr hg (hns n hn)

/-- The one new entry, for a node that was there. -/
structure Filled (g : Graph) (name : String) (n : Nat) (h : Graph) : Prop where
  truthful : h.Truthful
  keeps : g.Keeps h
  entry : ∃ d, (h.memo n).derivatives = (name, d) :: (g.memo n).derivatives
  others : ∀ m : Nat, m < g.size → m ≠ n → (h.memo m).derivatives = (g.memo m).derivatives

theorem Prepares.remember (hgh : g.Prepares h) (hg : g.Truthful) (hn : n < g.size) (hd : d < h.size)
    (he : h.expr d = (g.expr n).derivative name) : Filled g name n (h.remember n name d) := by
  have hnh := hgh.keeps.lt hn
  have hmemo := memo_remember hgh.truthful.toWellFormed hnh name d
  refine ⟨hgh.truthful.remember hnh hd ?_, hgh.keeps.trans (keeps_remember h n name d),
    ⟨d, ?_⟩, ?_⟩
  · rw [he, hgh.expr hg hn]
  · rw [hmemo n, if_pos rfl, hgh.derivatives n hn]
  · intro m hm hne
    rw [hmemo m, if_neg hne.symm, hgh.derivatives m hm]

/-- Partial derivatives that are there, new or remembered, and are those of the rules. -/
structure PartialsReady (g : Graph) (p : Primitive) (ns : List NodeId) (r : Graph × List NodeId) :
    Prop where
  prepares : g.Prepares r.1
  lt : ∀ n : Nat, n ∈ r.2 → n < r.1.size
  exprs : r.2.map r.1.expr = (p.partials Expr.shared (ns.map g.expr)).map Term.join

theorem partialsOf_ready (hg : g.Truthful) (hn : g.nodes[n]? = some (.operation op ns)) :
    PartialsReady g op.primitive ns (g.partialsOf n op.primitive ns) := by
  cases hp : (g.memo n).partials? with
  | some ps =>
    simp only [partialsOf, hp]
    obtain ⟨hlt, he⟩ := hg.partials hn hp
    exact ⟨hg.prepares .refl, hlt, he⟩
  | none =>
    simp only [partialsOf, hp]
    have hleaves : ∀ t ∈ op.primitive.partials Shared.id ns, ∀ m : Nat, m ∈ t.leaves →
        m < g.size := by
      intro t ht m hm
      rcases Primitive.mem_leaves_partials ht hm with hm | ⟨c, rfl⟩
      · exact hg.operand_lt_size hn hm
      · exact hg.shared_lt c
    have hb := extendAll_built hleaves
    have he := extendAll_exprs hg.toWellFormed hleaves
    generalize g.extendAll (op.primitive.partials Shared.id ns) = r at hb he ⊢
    have hprep := hg.prepares hb.grown
    have hexprs :
        r.2.map r.1.expr = (op.primitive.partials Expr.shared (ns.map g.expr)).map Term.join := by
      rw [he, ← hg.shared_eq, Primitive.partials_map, List.map_map]
      exact List.map_congr_left fun t _ => (t.join_map g.expr).symm
    have hops : ns.map r.1.expr = ns.map g.expr :=
      hprep.map_expr hg fun m hm => hg.operand_lt_size hn hm
    refine ⟨⟨?_, hprep.keeps, ?_⟩, hb.lt, hexprs⟩
    · exact hprep.truthful.rememberPartials (hprep.keeps hn) hb.lt (by rw [hops, hexprs])
    · intro m hm
      rw [memo_rememberPartials hprep.truthful.toWellFormed (hprep.keeps.lt (lt_size hn))]
      split
      · exact hprep.derivatives m hm
      · exact hprep.derivatives m hm

/-- Preparing leaves the derivatives that are known as they are. -/
theorem Prepares.derivative? (hgh : g.Prepares h) (hn : n < g.size) (name : String) :
    h.derivative? name n = g.derivative? name n :=
  derivative?_congr hgh.keeps hn (by rw [hgh.derivatives n hn])

theorem Prepares.derivativeOf (hgh : g.Prepares h) (hg : g.Truthful) (hm : m < g.size)
    (hd : (g.derivative? name m).isSome) : h.derivativeOf name m < h.size ∧
      h.expr (h.derivativeOf name m) = (g.expr m).derivative name := by
  obtain ⟨d, hd⟩ := Option.isSome_iff_exists.mp hd
  have hdh : h.derivative? name m = some d := (hgh.derivative? hm name).trans hd
  obtain ⟨hlt, he⟩ := hgh.truthful.known (hgh.keeps.lt hm) hdh
  rw [derivativeOf_eq hdh, he, hgh.expr hg hm]
  exact ⟨hlt, rfl⟩

theorem Prepares.derivativeOf_exprs (hgh : g.Prepares h) (hg : g.Truthful)
    (hns : ∀ m : Nat, m ∈ ns → m < g.size)
    (hd : ∀ m ∈ ns, (g.derivative? name m).isSome) :
    (ns.map (h.derivativeOf name)).map h.expr = (ns.map g.expr).map (Expr.derivative name) := by
  rw [List.map_map, List.map_map]
  exact List.map_congr_left fun m hm => (hgh.derivativeOf hg (hns m hm) (hd m hm)).2

theorem fillByPartials_filled (hg : g.Truthful) (hn : g.nodes[n]? = some (.operation op ns))
    (hne : ns ≠ []) (hq : op.primitive.quotient? Expr.shared (ns.map g.expr) = none)
    (hd : ∀ m ∈ ns, (g.derivative? name m).isSome) :
    Filled g name n (g.fillByPartials name n op.primitive ns) := by
  have hns := fun (m : Nat) (hm : m ∈ ns) => hg.operand_lt_size hn hm
  have hready := partialsOf_ready hg hn
  simp only [fillByPartials]
  generalize g.partialsOf n op.primitive ns = r at hready ⊢
  obtain ⟨h, ps⟩ := r
  have hh := hready.prepares.truthful
  have hleaves :
      ∀ m : Nat, m ∈ (chainRule Shared.id ps (ns.map (h.derivativeOf name))).leaves →
        m < h.size := by
    intro m hm
    rcases mem_leaves_chainRule hm with hm | hm | ⟨c, rfl⟩
    · exact hready.lt m hm
    · obtain ⟨o, ho, rfl⟩ := List.mem_map.mp hm
      exact (hready.prepares.derivativeOf hg (hns o ho) (hd o ho)).1
    · exact hh.shared_lt c
  have hb := extend_built hleaves
  have he := extend_expr hh.toWellFormed hleaves
  generalize h.extend (chainRule Shared.id ps (ns.map (h.derivativeOf name))) = r at hb he ⊢
  refine (hready.prepares.trans (hh.prepares hb.grown)).remember hg (lt_size hn) hb.lt ?_
  rw [he, hg.expr_operation hn, Expr.derivative_chain (by simpa using hne) hq, Expr.chain,
    ← hready.exprs, ← hready.prepares.derivativeOf_exprs hg hns hd, ← hh.shared_eq,
    chainRule_map, Term.join_map]

/-- A new node may be filled on the way. -/
theorem Prepares.filled (hgh : g.Prepares h) (hf : Filled h name n k) (hn : g.size ≤ n) :
    g.Prepares k :=
  ⟨hf.truthful, hgh.keeps.trans hf.keeps, fun m hm =>
    (hf.others m (hgh.keeps.lt hm) (by omega)).trans (hgh.derivatives m hm)⟩

theorem Filled.known (hf : Filled g name n h) (hn : g.nodes[n]? = some (.operation op ns)) :
    (h.derivative? name n).isSome := by
  obtain ⟨d, hd⟩ := hf.entry
  rw [derivative?_operation (hf.keeps hn), hd, List.lookup_cons_self]
  rfl

/-- The sum under a root or a logarithm is a node of its own, and its derivative is worked out
first. -/
theorem fillSum_prepares {inner : Primitive} (hg : g.Truthful)
    (hns : ∀ m : Nat, m ∈ ns → m < g.size) (hne : ns ≠ [])
    (hinner : ∀ es, inner.quotient? Expr.shared es = none)
    (hd : ∀ m ∈ ns, (g.derivative? name m).isSome) :
    let sum := g.add (.operation (.any inner) ns)
    let worked := sum.1.fillByPartials name sum.2 inner ns
    g.Prepares worked ∧ worked.derivativeOf name sum.2 < worked.size ∧
      worked.expr (worked.derivativeOf name sum.2) =
        Expr.chain inner (ns.map g.expr) ((ns.map g.expr).map (Expr.derivative name)) := by
  intro sum worked
  have hsum : g.Prepares sum.1 := hg.prepares (.add .refl hns)
  have hnode : sum.1.nodes[sum.2]? = some (.operation (.any inner) ns) := nodes_add_self g _
  have hworked : Filled sum.1 name sum.2 worked :=
    fillByPartials_filled hsum.truthful hnode hne (hinner _)
      fun m hm => by rw [hsum.derivative? (hns m hm)]; exact hd m hm
  have hprep : g.Prepares worked := hsum.filled hworked (Nat.le_refl _)
  obtain ⟨d, hd⟩ := Option.isSome_iff_exists.mp (hworked.known hnode)
  obtain ⟨hlt, he⟩ := hprep.truthful.known (hworked.keeps.lt (lt_size hnode)) hd
  rw [hprep.truthful.expr_operation (hworked.keeps hnode), hprep.map_expr hg hns,
    Expr.derivative_chain (by simpa using hne) (hinner _)] at he
  rw [derivativeOf_eq hd]
  exact ⟨hprep, hlt, he⟩

theorem fillByQuotient_filled {inner : Primitive} {divisor : Term NodeId} (hg : g.Truthful)
    (hn : g.nodes[n]? = some (.operation op ns)) (hne : ns ≠ [])
    (hq : op.primitive.quotient? Shared.id ns = some (inner, divisor))
    (hqe : op.primitive.quotient? Expr.shared (ns.map g.expr) = some (inner, divisor.map g.expr))
    (hd : ∀ m ∈ ns, (g.derivative? name m).isSome) :
    let sum := g.add (.operation (.any inner) ns)
    let worked := sum.1.fillByPartials name sum.2 inner ns
    let quotient := worked.extend (.divide (.leaf (worked.derivativeOf name sum.2)) divisor)
    Filled g name n (quotient.1.remember n name quotient.2) := by
  intro sum worked quotient
  have hns := fun (m : Nat) (hm : m ∈ ns) => hg.operand_lt_size hn hm
  obtain ⟨hprep, hlt, he⟩ :
      g.Prepares worked ∧ worked.derivativeOf name sum.2 < worked.size ∧
      worked.expr (worked.derivativeOf name sum.2) =
        Expr.chain inner (ns.map g.expr) ((ns.map g.expr).map (Expr.derivative name)) :=
    fillSum_prepares hg hns hne (Primitive.quotient?_inner hq · Expr.shared) hd
  have hdivisor : ∀ m : Nat, m ∈ divisor.leaves → m < g.size := by
    intro m hm
    rcases Primitive.mem_leaves_quotient hq hm with hm | ⟨c, rfl⟩
    · exact hns m hm
    · exact hg.shared_lt c
  have hleaves :
      ∀ m : Nat, m ∈ (Term.divide (.leaf (worked.derivativeOf name sum.2)) divisor).leaves →
        m < worked.size := by
    intro m hm
    rcases Term.mem_leaves_divide.mp hm with hm | hm
    · obtain rfl := List.mem_singleton.mp hm
      exact hlt
    · exact hprep.keeps.lt (hdivisor m hm)
  have hb := extend_built hleaves
  refine (hprep.trans (hprep.truthful.prepares hb.grown)).remember hg (lt_size hn) hb.lt ?_
  rw [extend_expr hprep.truthful.toWellFormed hleaves, hg.expr_operation hn,
    Expr.derivative_quotient (by simpa using hne) hqe, Term.join_map]
  have hsame : divisor.bind worked.expr = divisor.bind g.expr :=
    Term.bind_congr fun m hm => hprep.expr hg (hdivisor m hm)
  simp only [Term.divide, Term.bind_operation, List.map_cons, List.map_nil,
    Term.bind_leaf, hsame, he]

theorem fill_filled (hg : g.Truthful) (hn : g.nodes[n]? = some (.operation op ns))
    (hd : ∀ m ∈ ns, (g.derivative? name m).isSome) : Filled g name n (g.fill name n) := by
  have hns := fun (m : Nat) (hm : m ∈ ns) => hg.operand_lt_size hn hm
  simp only [fill, hn]
  split
  · rename_i hnil
    subst ns
    refine (hg.prepares .refl).remember hg (lt_size hn) (hg.shared_lt _) ?_
    rw [hg.expr_shared, hg.expr_operation hn, Expr.derivative_operation]
    rfl
  · rename_i hne
    have hqe := Primitive.quotient?_map g.expr Shared.id op.primitive ns
    rw [hg.shared_eq] at hqe
    cases hq : op.primitive.quotient? Shared.id ns with
    | none =>
      rw [hq] at hqe
      exact fillByPartials_filled hg hn hne hqe hd
    | some q =>
      obtain ⟨inner, divisor⟩ := q
      rw [hq] at hqe
      exact fillByQuotient_filled hg hn hne hq hqe hd

end Graph
end Fluxion

import Fluxion.Proofs.Graph.Blocks

namespace Fluxion.Graph

variable {g h : Graph} {n m : Nat} {name : String} {op : Operator} {ns ps : List NodeId}
  {k l : Task} {b : Nat → Block}

/-- The derivatives of an operation come from its partial derivatives. -/
def ByPartials (g : Graph) (n : NodeId) : Prop :=
  ∃ op ns, g.nodes[n]? = some (.operation op ns) ∧ ns ≠ [] ∧
    op.primitive.quotient? Shared.id ns = none

/-- The block of a task for every place it can start at. -/
inductive Plan (g : Graph) : Task → (Nat → Block) → Prop
  | partials {n : Nat} {op : Operator} {ns : List NodeId} :
      g.nodes[n]? = some (.operation op ns) →
      Plan g (.partials n) fun first => partialsBlock first op.primitive ns
  | zero {n : Nat} {op : Operator} {name : String} : g.nodes[n]? = some (.operation op []) →
      Plan g (.derivative n name) fun _ => ⟨[], .empty, [Shared.zero.id]⟩
  | chain {n : Nat} {op : Operator} {ns ps : List NodeId} {name : String} :
      g.nodes[n]? = some (.operation op ns) → ns ≠ [] →
      op.primitive.quotient? Shared.id ns = none →
      g.answer? (.partials n) = some ps → (∀ m ∈ ns, (g.derivative? name m).isSome) →
      Plan g (.derivative n name) fun first => chainBlock first ps (ns.map (g.derivativeOf name))
  | quotient {n : Nat} {op : Operator} {ns : List NodeId} {inner : Primitive}
      {divisor : Term NodeId} {name : String} :
      g.nodes[n]? = some (.operation op ns) → ns ≠ [] →
      op.primitive.quotient? Shared.id ns = some (inner, divisor) →
      (∀ m ∈ ns, (g.derivative? name m).isSome) →
      Plan g (.derivative n name) fun first =>
        quotientBlock first name inner divisor ns (ns.map (g.derivativeOf name))

/-- The graph holds what a task builds on. -/
def Supplies (g : Graph) (k : Task) : Prop := ∃ b, Plan g k b

/-- The task's block was added, its answer is remembered, and all else is as it was. -/
structure Adds (g : Graph) (k : Task) (h : Graph) : Prop where
  nodes : h.nodes = g.nodes ++ (g.block g.size k).nodes.toArray
  answers : ∀ l : Task, l.owner < g.size →
    h.answer? l = if l = k then some (g.block g.size k).answer else g.answer? l
  memos : ∀ m : Nat, m < g.size → m ≠ k.owner → h.memo m = g.memo m
  made : ∀ i, h.memo (g.size + i) = if i = 0 then (g.block g.size k).memo else .empty

theorem block_of_not_operation (hk : ¬ ∃ op ns, g.nodes[k.owner]? = some (.operation op ns))
    (first : Nat) : g.block first k = ⟨[], .empty, []⟩ := by
  obtain hn | ⟨l, hn⟩ :
      g.nodes[k.owner]? = none ∨ ∃ l, g.nodes[k.owner]? = some (.leaf l) := by
    cases hn : g.nodes[k.owner]? with
    | none => exact .inl rfl
    | some node =>
      cases node with
      | leaf l => exact .inr ⟨l, rfl⟩
      | operation op ns => exact absurd ⟨op, ns, hn⟩ hk
  all_goals cases k <;> simp_all [block, Task.owner]

theorem block_partials (hn : g.nodes[n]? = some (.operation op ns)) (first : Nat) :
    g.block first (.partials n) = partialsBlock first op.primitive ns := by
  simp [block, hn]

theorem block_nil (hn : g.nodes[n]? = some (.operation op [])) (first : Nat) (name : String) :
    g.block first (.derivative n name) = ⟨[], .empty, [Shared.zero.id]⟩ := by
  simp [block, hn]

theorem block_chain (hn : g.nodes[n]? = some (.operation op ns)) (hne : ns ≠ [])
    (hq : op.primitive.quotient? Shared.id ns = none) (first : Nat) (name : String) :
    g.block first (.derivative n name) =
      chainBlock first ((g.answer? (.partials n)).getD []) (ns.map (g.derivativeOf name)) := by
  simp [block, hn, hne, hq]

theorem block_quotient {inner : Primitive} {divisor : Term NodeId}
    (hn : g.nodes[n]? = some (.operation op ns)) (hne : ns ≠ [])
    (hq : op.primitive.quotient? Shared.id ns = some (inner, divisor)) (first : Nat)
    (name : String) :
    g.block first (.derivative n name) =
      quotientBlock first name inner divisor ns (ns.map (g.derivativeOf name)) := by
  simp [block, hn, hne, hq]

theorem Plan.block_eq (hb : Plan g k b) (first : Nat) : g.block first k = b first := by
  cases hb with
  | partials hn => exact block_partials hn first
  | zero hn => exact block_nil hn first _
  | chain hn hne hq hps _ => rw [block_chain hn hne hq, hps, Option.getD_some]
  | quotient hn hne hq _ => exact block_quotient hn hne hq first _

theorem derivativeOf_congr (hk : g.Keeps h) (hm : m < g.size)
    (ha : h.answer? (.derivative m name) = g.answer? (.derivative m name)) :
    h.derivativeOf name m = g.derivativeOf name m := by
  have hlookup : (h.memo m).derivatives.lookup name = (g.memo m).derivatives.lookup name := by
    simp only [answer?] at ha
    cases hh : (h.memo m).derivatives.lookup name <;>
      cases hg : (g.memo m).derivatives.lookup name <;>
      simp_all
  simp only [derivativeOf, derivative?_congr hk hm hlookup]

theorem answer?_of_size_le (hg : g.WellFormed) (hk : g.size ≤ k.owner) : g.answer? k = none := by
  cases k with
  | partials n => simp [answer?, memo_of_size_le hg (show g.size ≤ n from hk), Memo.empty]
  | derivative n name => simp [answer?, memo_of_size_le hg (show g.size ≤ n from hk), Memo.empty]

theorem lt_of_answer? {answer : List NodeId} (hg : g.WellFormed) (ha : g.answer? k = some answer) :
    k.owner < g.size := by
  refine Nat.lt_of_not_le fun hle => ?_
  rw [answer?_of_size_le hg hle] at ha
  cases ha

theorem partialsOf_adds (hg : g.WellFormed) (hn : g.nodes[n]? = some (.operation op ns))
    (hnone : g.answer? (.partials n) = none) :
    Adds g (.partials n) (g.partialsOf n op.primitive ns).1 ∧
      (g.partialsOf n op.primitive ns).2 = (g.block g.size (.partials n)).answer := by
  have hlt := lt_size hn
  have hp : (g.memo n).partials? = none := hnone
  have hmemos : n < (g.append (laidAll g.size (op.primitive.partials Shared.id ns)).1).memos.size :=
    Nat.lt_of_lt_of_le (hg.lt_memos hlt) (by simp [append])
  simp only [partialsOf, hp, extendAll_eq, block_partials hn, partialsBlock]
  refine ⟨⟨?_, ?_, ?_, ?_⟩, trivial⟩
  · simp [block_partials hn, partialsBlock, append]
  · intro l _
    rw [answer?_rememberPartials hmemos, answer?_append, block_partials hn]
    rfl
  · intro m _ (hm : m ≠ n)
    rw [rememberPartials, memo_modify hmemos, if_neg (Ne.symm hm), memo_append]
  · intro i
    rw [rememberPartials, memo_modify hmemos, if_neg (by omega), memo_append, block_partials hn,
      memo_of_size_le hg (Nat.le_add_right _ _)]
    simp [partialsBlock]

/-- A derivative that needs no sum of its own. -/
theorem remember_adds (hg : g.WellFormed) (hn : n < g.size) {nodes : List Node} {d : NodeId}
    (hblock : g.block g.size (.derivative n name) = ⟨nodes, .empty, [d]⟩) :
    Adds g (.derivative n name) ((g.append nodes).remember n name d) := by
  have hmemos : n < (g.append nodes).memos.size :=
    Nat.lt_of_lt_of_le (hg.lt_memos hn) (by simp [append])
  refine ⟨?_, ?_, ?_, ?_⟩
  · simp [hblock, append]
  · intro l _
    rw [answer?_remember hmemos, answer?_append, hblock]
  · intro m _ (hm : m ≠ n)
    rw [remember, memo_modify hmemos, if_neg (Ne.symm hm), memo_append]
  · intro i
    rw [remember, memo_modify hmemos, if_neg (by omega), memo_append, hblock,
      memo_of_size_le hg (Nat.le_add_right _ _)]
    simp

theorem chain_adds (hg : g.WellFormed) (hn : g.nodes[n]? = some (.operation op ns))
    (hne : ns ≠ []) (hq : op.primitive.quotient? Shared.id ns = none)
    (hps : g.answer? (.partials n) = some ps) :
    let made := g.extend (chainRule Shared.id ps (ns.map (g.derivativeOf name)))
    Adds g (.derivative n name) (made.1.remember n name made.2) := by
  intro made
  have hmade : made = (g.append _, _) := extend_eq g _
  rw [hmade]
  refine remember_adds hg (lt_size hn) ?_
  rw [block_chain hn hne hq, hps]
  rfl

/-- What the sum under a root or a logarithm is turned into. -/
theorem fillByPartials_sum (hg : g.WellFormed) (hns : ∀ m : Nat, m ∈ ns → m < g.size)
    {inner : Primitive} {partials products : List Node} {d : NodeId}
    (hps : laidAll (g.size + 1) (inner.partials Shared.id ns) = (partials, ps))
    (hd : laid (g.size + 1 + partials.length)
      (chainRule Shared.id ps (ns.map (g.derivativeOf name))) = (products, d)) :
    let sum := g.add (.operation (.any inner) ns)
    let worked := sum.1.fillByPartials name sum.2 inner ns
    worked.nodes = g.nodes ++ (.operation (.any inner) ns :: (partials ++ products)).toArray ∧
      worked.memos.size = worked.size ∧
      ∀ m, worked.memo m = if m = g.size then ⟨some ps, [(name, d)]⟩ else g.memo m := by
  intro sum worked
  let started := g.append (.operation (.any inner) ns :: partials)
  have hmemos : g.size < started.memos.size := by simp [started, append, hg.memos_size, size]
  have hreads : ns.map ((started.rememberPartials g.size ps).derivativeOf name) =
      ns.map (g.derivativeOf name) := by
    refine List.map_congr_left fun m hm => derivativeOf_congr (keeps_append g _) (hns m hm) ?_
    rw [answer?_rememberPartials hmemos, answer?_append]
    simp
  have hworked :
      worked = ((started.rememberPartials g.size ps).append products).remember g.size name d := by
    have hempty : ((g.append [.operation (.any inner) ns]).memo g.size).partials? = none := by
      rw [memo_append, memo_of_size_le hg (Nat.le_refl _)]
      rfl
    have hsize : (started.rememberPartials g.size ps).size = g.size + 1 + partials.length := by
      simp only [started, size_rememberPartials, size_append, List.length_cons]
      omega
    simp only [worked, sum, add_eq, fillByPartials, partialsOf, hempty, extendAll_eq, size_append,
      List.length_singleton, hps, append_append, List.singleton_append]
    change ((started.rememberPartials g.size ps).extend _).1.remember g.size name _ = _
    rw [hreads, extend_eq, hsize, hd]
  have hmemos' : g.size < ((started.rememberPartials g.size ps).append products).memos.size :=
    Nat.lt_of_lt_of_le hmemos (by simp [append, rememberPartials])
  rw [hworked]
  refine ⟨?_, ?_, fun m => ?_⟩
  · simp [started, append, Array.append_assoc]
  · simp [started, append, remember, rememberPartials, size, hg.memos_size]
    omega
  · rw [remember, memo_modify hmemos', memo_append, rememberPartials, memo_modify hmemos,
      memo_append]
    by_cases hm : m = g.size
    · subst m
      simp [memo_of_size_le hg (Nat.le_refl _), Memo.empty]
    · simp [hm, Ne.symm hm]

theorem quotient_adds {inner : Primitive} {divisor : Term NodeId} (hg : g.WellFormed)
    (hn : g.nodes[n]? = some (.operation op ns)) (hne : ns ≠ [])
    (hq : op.primitive.quotient? Shared.id ns = some (inner, divisor)) :
    let sum := g.add (.operation (.any inner) ns)
    let worked := sum.1.fillByPartials name sum.2 inner ns
    let quotient := worked.extend (.divide (.leaf (worked.derivativeOf name sum.2)) divisor)
    Adds g (.derivative n name) (quotient.1.remember n name quotient.2) := by
  intro sum worked quotient
  have hns := fun (m : Nat) (hm : m ∈ ns) => hg.operand_lt_size hn hm
  obtain ⟨partials, ps, hps⟩ : ∃ partials ps,
      laidAll (g.size + 1) (inner.partials Shared.id ns) = (partials, ps) := ⟨_, _, rfl⟩
  obtain ⟨products, d, hd⟩ : ∃ products d, laid (g.size + 1 + partials.length)
      (chainRule Shared.id ps (ns.map (g.derivativeOf name))) = (products, d) := ⟨_, _, rfl⟩
  obtain ⟨hnodes, hmemos, hmemo⟩ : worked.nodes =
        g.nodes ++ (.operation (.any inner) ns :: (partials ++ products)).toArray ∧
      worked.memos.size = worked.size ∧
      ∀ m, worked.memo m = if m = g.size then ⟨some ps, [(name, d)]⟩ else g.memo m :=
    fillByPartials_sum hg hns hps hd
  have hsize : worked.size = g.size + 1 + partials.length + products.length := by
    simp [size, hnodes]
    omega
  have hsum : worked.derivativeOf name sum.2 = d := by
    have hnode : worked.nodes[g.size]? = some (.operation (.any inner) ns) := by
      simp [hnodes, size]
    refine derivativeOf_eq ?_
    change worked.derivative? name g.size = some d
    rw [derivative?_operation hnode, hmemo, if_pos rfl, List.lookup_cons_self]
  have hquotient : quotient = (worked.append (laid worked.size (.divide (.leaf d) divisor)).1,
      (laid worked.size (.divide (.leaf d) divisor)).2) := by
    simp only [quotient, hsum, extend_eq]
  have hblock : g.block g.size (.derivative n name) =
      ⟨.operation (.any inner) ns ::
        (partials ++ products ++ (laid worked.size (.divide (.leaf d) divisor)).1),
        ⟨some ps, [(name, d)]⟩, [(laid worked.size (.divide (.leaf d) divisor)).2]⟩ := by
    simp only [block_quotient hn hne hq, quotientBlock, hps, hd, hsize]
  generalize laid worked.size (.divide (.leaf d) divisor) = last at hquotient hblock
  have hlt : n < (worked.append last.1).memos.size := by
    have hn := lt_size hn
    simp [append, hmemos, hsize]
    omega
  rw [hquotient]
  refine ⟨?_, fun l hl => ?_, fun m hlt' (hm : m ≠ n) => ?_, fun i => ?_⟩
  · simp [hblock, append, hnodes, Array.append_assoc]
  · have hrest : worked.answer? l = g.answer? l := by
      have hne : l.owner ≠ g.size := Nat.ne_of_lt hl
      cases l <;> simp_all [answer?, Task.owner]
    rw [answer?_remember hlt, answer?_append, hrest, hblock]
  · rw [remember, memo_modify hlt, if_neg (Ne.symm hm), memo_append, hmemo,
      if_neg (Nat.ne_of_lt hlt')]
  · have hne : n ≠ g.size + i := by
      have hn := lt_size hn
      omega
    rw [remember, memo_modify hlt, if_neg hne, memo_append, hmemo, hblock]
    by_cases hi : i = 0
    · simp [hi]
    · simp [hi, memo_of_size_le hg (Nat.le_add_right _ _)]

/-- Tasks performed one after the other, none of them twice, and each when
the graph holds what it builds on. -/
inductive Performs : Graph → List Task → Graph → Prop
  | nil {g : Graph} : Performs g [] g
  | cons {g h i : Graph} {k : Task} {ks : List Task} :
      g.answer? k = none → g.Supplies k → g.Adds k h →
      h.WellFormed → Performs h ks i → Performs g (k :: ks) i

theorem Performs.append {i : Graph} {ks ls : List Task} (hgh : Performs g ks h)
    (hhi : Performs h ls i) : Performs g (ks ++ ls) i := by
  induction hgh with
  | nil => exact hhi
  | cons hnone hsupplies hadds hw _ ih => exact .cons hnone hsupplies hadds hw (ih hhi)

theorem answer?_derivative_eq_none (hn : g.nodes[n]? = some (.operation op ns)) :
    g.answer? (.derivative n name) = none ↔ g.derivative? name n = none := by
  simp [answer?, derivative?_operation hn]

theorem operands_eq (hn : g.nodes[n]? = some (.operation op ns)) : g.operands n = ns := by
  simp [operands, hn]

theorem byPartials_iff (hn : g.nodes[n]? = some (.operation op ns)) :
    g.ByPartials n ↔ ns ≠ [] ∧ op.primitive.quotient? Shared.id ns = none := by
  simp [ByPartials, hn]

theorem fillByPartials_performs (hg : g.Truthful) (hn : g.nodes[n]? = some (.operation op ns))
    (hne : ns ≠ []) (hq : op.primitive.quotient? Shared.id ns = none)
    (hd : ∀ m ∈ ns, (g.derivative? name m).isSome)
    (hnone : g.answer? (.derivative n name) = none)
    (hf : (g.fillByPartials name n op.primitive ns).WellFormed) :
    ∃ ks, Performs g ks (g.fillByPartials name n op.primitive ns) ∧
      ∀ k, k ∈ ks ↔ k = .derivative n name ∨
        k = .partials n ∧ g.answer? (.partials n) = none := by
  cases hp : g.answer? (.partials n) with
  | some ps =>
    have hpartials : g.partialsOf n op.primitive ns = (g, ps) := by
      have hmemo : (g.memo n).partials? = some ps := hp
      simp [partialsOf, hmemo]
    simp only [fillByPartials, hpartials] at hf ⊢
    exact ⟨[_], .cons hnone ⟨_, .chain hn hne hq hp hd⟩
      (chain_adds hg.toWellFormed hn hne hq hp) hf .nil, by simp⟩
  | none =>
    obtain ⟨hadds, hanswer⟩ := partialsOf_adds hg.toWellFormed hn hp
    have hready := partialsOf_ready hg hn
    simp only [fillByPartials] at hf ⊢
    generalize g.partialsOf n op.primitive ns = r at hadds hanswer hready hf ⊢
    have hw := hready.prepares.truthful.toWellFormed
    have hnr := hready.prepares.keeps hn
    have hpr : r.1.answer? (.partials n) = some r.2 := by
      rw [hadds.answers (.partials n) (lt_size hn), if_pos rfl, hanswer]
    have hdr : r.1.answer? (.derivative n name) = none := by
      rw [hadds.answers (.derivative n name) (lt_size hn), if_neg (by simp), hnone]
    have hknown : ∀ m ∈ ns, (r.1.derivative? name m).isSome := by
      intro m hm
      rw [hready.prepares.derivative? (hg.operand_lt_size hn hm)]
      exact hd m hm
    have hrest : Performs r.1 [.derivative n name] _ :=
      .cons hdr ⟨_, .chain hnr hne hq hpr hknown⟩ (chain_adds hw hnr hne hq hpr) hf .nil
    exact ⟨_, .cons hp ⟨_, .partials hn⟩ hadds hw hrest, by simp [or_comm]⟩

/-- To fill a node is to work out its partial derivatives, if it needs them and they are
not there, and then its derivative. -/
theorem fill_performs (hg : g.Truthful) (hn : g.nodes[n]? = some (.operation op ns))
    (hd : ∀ m ∈ ns, (g.derivative? name m).isSome) (hnone : g.derivative? name n = none) :
    ∃ ks, Performs g ks (g.fill name n) ∧ ∀ k, k ∈ ks ↔ k = .derivative n name ∨
      k = .partials n ∧ g.ByPartials n ∧ g.answer? (.partials n) = none := by
  have hw := hg.toWellFormed
  have hf := (fill_filled hg hn hd).truthful.toWellFormed
  have hnone := (answer?_derivative_eq_none hn).mpr hnone
  simp only [fill, hn] at hf ⊢
  by_cases hnil : ns = []
  · subst ns
    rw [if_pos rfl] at hf ⊢
    have hby : ¬ g.ByPartials n := by simp [byPartials_iff hn]
    have hadds := remember_adds hw (lt_size hn) (block_nil hn g.size name)
    rw [append_nil] at hadds
    exact ⟨[_], .cons hnone ⟨_, .zero hn⟩ hadds hf .nil, by simp [hby]⟩
  · rw [if_neg hnil] at hf ⊢
    cases hq : op.primitive.quotient? Shared.id ns with
    | none =>
      have hby : g.ByPartials n := (byPartials_iff hn).mpr ⟨hnil, hq⟩
      simp only [hq] at hf
      obtain ⟨ks, hperforms, hks⟩ := fillByPartials_performs hg hn hnil hq hd hnone hf
      exact ⟨ks, hperforms, by simpa [hby] using hks⟩
    | some q =>
      obtain ⟨inner, divisor⟩ := q
      have hby : ¬ g.ByPartials n := by simp [byPartials_iff hn, hq]
      simp only [hq] at hf
      exact ⟨[_], .cons hnone ⟨_, .quotient hn hnil hq hd⟩
        (quotient_adds hw hn hnil hq) hf .nil,
        by simp [hby]⟩

end Fluxion.Graph

import Fluxion.Proofs.Graph.Requests

namespace Fluxion.Graph

variable {g h : Graph} {n m first : Nat} {name : String} {op : Operator}
  {ns ps answer : List NodeId} {nodes more : List Node} {k l : Task} {ks : List Task}
  {b : Nat → Block} {d : NodeId}

/-- The nodes are there, from `first` on. -/
def Bears (g : Graph) (first : Nat) (nodes : List Node) : Prop :=
  ∀ ⦃i : Nat⦄ ⦃node : Node⦄, nodes[i]? = some node → g.nodes[first + i]? = some node

theorem Bears.keeps (hb : g.Bears first nodes) (hgh : g.Keeps h) : h.Bears first nodes :=
  fun _ _ hi => hgh (hb hi)

theorem Bears.left (hb : g.Bears first (nodes ++ more)) : g.Bears first nodes := by
  intro i node hi
  have hlt : i < nodes.length := (List.getElem?_eq_some_iff.mp hi).1
  apply hb
  rw [List.getElem?_append_left hlt, hi]

theorem Bears.right (hb : g.Bears first (nodes ++ more)) : g.Bears (first + nodes.length) more := by
  intro i node hi
  rw [Nat.add_assoc]
  apply hb
  rw [List.getElem?_append_right (Nat.le_add_right _ _), Nat.add_sub_cancel_left, hi]

theorem Adds.bears (ha : g.Adds k h) : h.Bears g.size (g.block g.size k).nodes := by
  intro i node hi
  rw [ha.nodes, Graph.size, Array.getElem?_append_right (Nat.le_add_right _ _),
    Nat.add_sub_cancel_left, List.getElem?_toArray]
  exact hi

private theorem represents_laidAll_of {ts : List (Term NodeId)}
    (hts : ∀ t ∈ ts, ∀ first, g.Bears first (laid first t).1 →
      g.Represents Eq t (laid first t).2)
    (hb : g.Bears first (laidAll first ts).1) :
    List.Forall₂ (g.Represents Eq) ts (laidAll first ts).2 := by
  induction ts generalizing first with
  | nil => exact .nil
  | cons t ts ih =>
    refine .cons (hts t List.mem_cons_self first hb.left) ?_
    exact ih (fun u hu => hts u (List.mem_cons_of_mem _ hu)) hb.right

/-- The node that a term was laid out for represents the term. -/
theorem represents_laid {t : Term NodeId} (hb : g.Bears first (laid first t).1) :
    g.Represents Eq t (laid first t).2 := by
  induction t using Term.induct generalizing first with
  | onLeaf n => exact .leaf rfl
  | onOperation op ts ih =>
    have hts := represents_laidAll_of (fun t ht first => ih t ht) hb.left
    exact .operation (hb.right (i := 0) rfl) hts

theorem represents_laidAll {ts : List (Term NodeId)} (hb : g.Bears first (laidAll first ts).1) :
    List.Forall₂ (g.Represents Eq) ts (laidAll first ts).2 :=
  represents_laidAll_of (fun _ _ _ => represents_laid) hb

/-- A quotient's block holds a block of partial derivatives and one of their products, and the sum
that these are about remembers both answers. -/
theorem Bears.quotientBlock {inner : Primitive} {divisor : Term NodeId} {ds : List NodeId}
    (hb : g.Bears first (quotientBlock first name inner divisor ns ds).nodes) :
    ∃ ps d q second third,
      (quotientBlock first name inner divisor ns ds).memo = ⟨some ps, [(name, d)]⟩ ∧
      (quotientBlock first name inner divisor ns ds).answer = [q] ∧
      g.Bears second (partialsBlock second inner ns).nodes ∧
      (partialsBlock second inner ns).answer = ps ∧
      g.Bears third (chainBlock third ps ds).nodes ∧ (chainBlock third ps ds).answer = [d] ∧
      g.Represents Eq (.divide (.leaf d) divisor) q := by
  obtain ⟨partials, ps, hps⟩ : ∃ partials ps,
      laidAll (first + 1) (inner.partials Shared.id ns) = (partials, ps) := ⟨_, _, rfl⟩
  obtain ⟨products, d, hd⟩ : ∃ products d,
      laid (first + 1 + partials.length) (chainRule Shared.id ps ds) = (products, d) :=
        ⟨_, _, rfl⟩
  simp only [Graph.quotientBlock, partialsBlock, chainBlock, hps, hd] at hb ⊢
  have hrest :
      g.Bears (first + [Node.operation (.any inner) ns].length) (partials ++ products ++ _) :=
    Bears.right hb
  have hquotient := hrest.right
  rw [List.length_append, ← Nat.add_assoc] at hquotient
  refine ⟨ps, d, _, first + 1, first + 1 + partials.length, rfl, rfl, ?_, ?_, ?_, ?_,
    represents_laid hquotient⟩
  · rw [hps]
    exact hrest.left.left
  · rw [hps]
  · rw [hd]
    exact hrest.left.right
  · rw [hd]

/-- The block of the task is in the graph, and has this answer. -/
def Written (g : Graph) (k : Task) (answer : List NodeId) : Prop :=
  ∃ b first, Plan g k b ∧ g.Bears first (b first).nodes ∧ (b first).answer = answer

def Recorded (g : Graph) : Prop :=
  ∀ ⦃k : Task⦄ ⦃answer : List NodeId⦄, g.answer? k = some answer → g.Written k answer

theorem initial_recorded : initial.Recorded := by
  intro k answer ha
  cases k <;> simp [answer?, memo_initial, Memo.empty] at ha

theorem Written.retains (hk : g.Written k answer) (hw : g.WellFormed) (hgh : g.Retains h) :
    h.Written k answer := by
  obtain ⟨b, first, hb, hbears, hanswer⟩ := hk
  exact ⟨b, first, hb.retains hw hgh, hbears.keeps hgh.keeps, hanswer⟩

theorem Recorded.grown (hg : g.Recorded) (hw : g.WellFormed) (hgh : g.Grown h) : h.Recorded := by
  intro k answer ha
  rw [hgh.answer?] at ha
  exact (hg ha).retains hw hgh.retains

theorem Plan.written (hb : Plan g k b) (hw : g.WellFormed) (ha : g.Adds k h) (hgh : g.Retains h) :
    h.Written k (g.block g.size k).answer := by
  have hbears := ha.bears
  rw [hb.block_eq] at hbears ⊢
  exact ⟨b, g.size, hb.retains hw hgh, hbears, rfl⟩

/-- What the first node of a block remembers is further on in the block. -/
theorem Plan.written_sum (hb : Plan g k b) (hw : g.WellFormed) (ha : g.Adds k h) (hgh : g.Retains h)
    (hl : l.owner = g.size) (hanswer : h.answer? l = some answer) : h.Written l answer := by
  have hsome := Option.isSome_of_eq_some hanswer
  obtain ⟨n, op, ns, inner, divisor, name, rfl, hn, hne, hq, hd, hsum, hmemo⟩ :=
    hb.sum_of_answer ha hl hsome
  have hbears := ha.bears
  rw [block_quotient hn hne hq] at hbears
  obtain ⟨ps, d, q, second, third, hmade, -, hpartials, hps, hproducts, hd', -⟩ :=
    hbears.quotientBlock
  rw [hmade] at hmemo
  cases l with
  | partials m =>
    obtain rfl : m = g.size := hl
    rw [answer?, hmemo, Option.some.injEq] at hanswer
    exact ⟨_, second, .partials hsum, hpartials, hps.trans hanswer⟩
  | derivative m other =>
    obtain rfl : m = g.size := hl
    have hmine : h.answer? (.partials g.size) = some ps := by rw [answer?, hmemo]
    obtain rfl : other = name := by
      by_contra hother
      simp [answer?, hmemo, List.lookup_cons, beq_false_of_ne hother] at hanswer
    have hanswer : [d] = answer := by simpa [answer?, hmemo] using hanswer
    have hknown (i : Nat) (hi : i ∈ ns) := hgh.known (hw.operand_lt_size hn hi) (hd i hi)
    have hplan : Plan h (.derivative g.size other) _ :=
      .chain hsum hne (Primitive.quotient?_inner hq _ _) hmine fun i hi => (hknown i hi).1
    rw [← List.map_congr_left fun i hi => (hknown i hi).2] at hproducts hd'
    exact ⟨_, third, hplan, hproducts, hd'.trans hanswer⟩

theorem Recorded.adds (hg : g.Recorded) (hw : g.WellFormed) (hk : g.Supplies k)
    (hnone : g.answer? k = none) (ha : g.Adds k h) : h.Recorded := by
  intro l answer hl
  have hgh := ha.retains hw hnone
  obtain ⟨b, hb⟩ := hk
  rcases ha.answer?_cases hl with hold | ⟨rfl, rfl⟩ | hfirst
  · exact (hg hold).retains hw hgh
  · exact hb.written hw ha hgh
  · exact hb.written_sum hw ha hgh hfirst hl

theorem Performs.recorded (hp : Performs g ks h) (hw : g.WellFormed) (hg : g.Recorded) :
    h.Recorded := by
  induction hp with
  | nil => exact hg
  | cons hnone hk ha hh _ ih => exact ih hh (hg.adds hw hk hnone ha)

theorem Evolves.recorded (hgh : g.Evolves h) (hg : g.Truthful) (hr : g.Recorded) : h.Recorded := by
  cases hgh with
  | grown hgh => exact hr.grown hg.toWellFormed hgh
  | asked hlt =>
    obtain ⟨ks, hks, -⟩ := (ask_serves hg hlt).performs
    exact hks.recorded hg.toWellFormed hr

/-- The node is the sum of the products of the partial derivatives and
the derivatives of the operands. -/
def Summed (g : Graph) (name : String) (p : Primitive) (ns : List NodeId) (d : NodeId) : Prop :=
  ∃ ps, List.Forall₂ (g.Represents Eq) (p.partials Shared.id ns) ps ∧
    g.Represents Eq (chainRule Shared.id ps (ns.map (g.derivativeOf name))) d

/-- The node is made the way the derivative of an operation is. -/
inductive Derivation (g : Graph) (name : String) (p : Primitive) (ns : List NodeId) :
    NodeId → Prop
  | zero : ns = [] → Derivation g name p ns Shared.zero.id
  | chain {d : NodeId} : ns ≠ [] → p.quotient? Shared.id ns = none → g.Summed name p ns d →
      Derivation g name p ns d
  | quotient {inner : Primitive} {divisor : Term NodeId} {d q : NodeId} : ns ≠ [] →
      p.quotient? Shared.id ns = some (inner, divisor) → g.Summed name inner ns d →
      g.Represents Eq (.divide (.leaf d) divisor) q → Derivation g name p ns q

theorem Written.partials (hk : g.Written (.partials n) ps)
    (hn : g.nodes[n]? = some (.operation op ns)) :
    List.Forall₂ (g.Represents Eq) (op.primitive.partials Shared.id ns) ps := by
  obtain ⟨b, first, hb, hbears, rfl⟩ := hk
  cases hb with
  | partials hn' =>
    obtain ⟨rfl, rfl⟩ := Node.operation.inj (Option.some.inj (hn.symm.trans hn'))
    exact represents_laidAll hbears

/-- A known derivative of an operation is made the way the rules say. -/
theorem Recorded.derivation (hg : g.Recorded) (hn : g.nodes[n]? = some (.operation op ns))
    (hd : g.derivative? name n = some d) : g.Derivation name op.primitive ns d := by
  have ha : g.answer? (.derivative n name) = some [d] := by
    rw [answer?, ← derivative?_operation hn, hd]
    rfl
  obtain ⟨b, first, hb, hbears, hanswer⟩ := hg ha
  cases hb with
  | zero hn' =>
    obtain ⟨rfl, rfl⟩ := Node.operation.inj (Option.some.inj (hn.symm.trans hn'))
    obtain rfl : Shared.zero.id = d := List.singleton_injective hanswer
    exact .zero rfl
  | chain hn' hne hq hps hknown =>
    obtain ⟨rfl, rfl⟩ := Node.operation.inj (Option.some.inj (hn.symm.trans hn'))
    obtain rfl := List.singleton_injective hanswer
    exact .chain hne hq ⟨_, (hg hps).partials hn, represents_laid hbears⟩
  | quotient hn' hne hq hknown =>
    obtain ⟨rfl, rfl⟩ := Node.operation.inj (Option.some.inj (hn.symm.trans hn'))
    obtain ⟨ps, e, q, second, third, -, hq', hpartials, rfl, hproducts, he, hquotient⟩ :=
      hbears.quotientBlock
    obtain rfl := List.singleton_injective (hq'.symm.trans hanswer)
    obtain rfl := List.singleton_injective he
    exact .quotient hne hq ⟨_, represents_laidAll hpartials,
      represents_laid hproducts⟩ hquotient

/-- Below a known derivative of an operation, those of the operands are known. -/
theorem Recorded.known (hg : g.Recorded) (hn : g.nodes[n]? = some (.operation op ns))
    (hd : g.derivative? name n = some d) (hm : m ∈ ns) :
    ∃ e, g.derivative? name m = some e := by
  have ha := (answer?_isSome_iff hn).mpr (Option.isSome_of_eq_some hd)
  obtain ⟨answer, ha⟩ := Option.isSome_iff_exists.mp ha
  obtain ⟨b, first, hb, -⟩ := hg ha
  exact Option.isSome_iff_exists.mp (hb.known (mem_operands.mpr ⟨op, ns, hn, hm⟩))

end Fluxion.Graph

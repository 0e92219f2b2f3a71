import Fluxion.Proofs.Graph.Acyclic
import Fluxion.Proofs.Graph.Identity
import Fluxion.Proofs.Graph.Shape

namespace Fluxion.Graph

open Relation

variable {g h : Graph} {n m d first : Nat} {name : String} {op : Operator} {ns ps ds : List NodeId}
  {k : Task} {inner : Primitive} {divisor : Term NodeId}

theorem represents_leaf_iff : g.Represents Eq (.leaf m) n ↔ m = n := by
  constructor
  · rintro (⟨rfl⟩ | _)
    rfl
  · rintro rfl
    exact .leaf rfl

theorem represents_pair_iff {t u : Term NodeId} : g.Represents Eq (.operation op [t, u]) n ↔
    ∃ x y, g.nodes[n]? = some (.operation op [x, y]) ∧ g.Represents Eq t x ∧
      g.Represents Eq u y := by
  constructor
  · rintro (_ | ⟨hn, hts⟩)
    obtain ⟨x, xs, hx, hrest, rfl⟩ := List.forall₂_cons_left_iff.mp hts
    obtain ⟨y, ys, hy, hnil, rfl⟩ := List.forall₂_cons_left_iff.mp hrest
    obtain rfl := List.forall₂_nil_left_iff.mp hnil
    exact ⟨x, y, hn, hx, hy⟩
  · rintro ⟨x, y, hn, hx, hy⟩
    exact .operation hn (.cons hx (.cons hy .nil))

theorem eq_of_represents_leaves {ms : List NodeId}
    (hms : List.Forall₂ (g.Represents Eq) (ms.map .leaf) ns) : ms = ns := by
  induction ms generalizing ns with
  | nil => exact (List.forall₂_nil_left_iff.mp hms).symm
  | cons m ms ih =>
    obtain ⟨n, rest, hn, hrest, rfl⟩ := List.forall₂_cons_left_iff.mp hms
    rw [represents_leaf_iff.mp hn, ih hrest]

theorem Represents.over_leaves {ms : List NodeId}
    (hn : g.Represents Eq (.operation op (ms.map .leaf)) n) :
    g.nodes[n]? = some (.operation op ms) := by
  obtain _ | ⟨hn, hms⟩ := hn
  rwa [eq_of_represents_leaves hms]

/-- The node is the sum from the left of products, each of which has the given factors. -/
inductive SumOfProducts (g : Graph) : List (NodeId × NodeId) → NodeId → Prop
  | one {p e d : NodeId} : g.nodes[d]? = some (.operation (.any .multiply) [p, e]) →
      SumOfProducts g [(p, e)] d
  | more {pairs : List (NodeId × NodeId)} {p e s t d : NodeId} : SumOfProducts g pairs s →
      g.nodes[t]? = some (.operation (.any .multiply) [p, e]) →
      g.nodes[d]? = some (.operation (.any .add) [s, t]) → SumOfProducts g (pairs ++ [(p, e)]) d

theorem SumOfProducts.operation {pairs : List (NodeId × NodeId)} (hd : g.SumOfProducts pairs d) :
    ∃ op ns, g.nodes[d]? = some (.operation op ns) := by
  cases hd with
  | one hn => exact ⟨_, _, hn⟩
  | more _ _ hn => exact ⟨_, _, hn⟩

private def product (pair : NodeId × NodeId) : Term NodeId :=
  .multiply (.leaf pair.1) (.leaf pair.2)

private theorem node_of_product {pair : NodeId × NodeId} (hn : g.Represents Eq (product pair) n) :
    g.nodes[n]? = some (.operation (.any .multiply) [pair.1, pair.2]) := by
  obtain ⟨x, y, hn, hx, hy⟩ := represents_pair_iff.mp hn
  rwa [represents_leaf_iff.mp hx, represents_leaf_iff.mp hy]

private theorem sumOfProducts_foldl {pairs more : List (NodeId × NodeId)} {t : Term NodeId}
    (ht : ∀ s, g.Represents Eq t s → g.SumOfProducts pairs s)
    (hd : g.Represents Eq ((more.map product).foldl Term.add t) d) :
    g.SumOfProducts (pairs ++ more) d := by
  induction more generalizing pairs t with
  | nil =>
    rw [List.append_nil]
    exact ht d hd
  | cons pair more ih =>
    rw [List.append_cons]
    refine ih (fun s hs => ?_) hd
    obtain ⟨x, y, hn, hx, hy⟩ := represents_pair_iff.mp hs
    exact .more (ht x hx) (node_of_product hy) hn

theorem sumOfProducts_of_chainRule (hne : ps.zip ds ≠ [])
    (hd : g.Represents Eq (chainRule Shared.id ps ds) d) : g.SumOfProducts (ps.zip ds) d := by
  have hzip : List.zipWith (fun p e => Term.multiply (.leaf p) (.leaf e)) ps ds =
      (ps.zip ds).map product := by
    rw [List.zip, List.map_zipWith]
    rfl
  rw [chainRule, hzip] at hd
  obtain ⟨pair, pairs, hpairs⟩ := List.exists_cons_of_ne_nil hne
  rw [hpairs] at hd ⊢
  have hone (s : NodeId) (hs : g.Represents Eq (product pair) s) : g.SumOfProducts [pair] s :=
    .one (node_of_product hs)
  exact sumOfProducts_foldl hone hd

/-- The node is made by the chain rule from partial derivatives and from the very nodes that the
derivatives of the operands are. -/
def Chained (g : Graph) (name : String) (ns ps : List NodeId) (d : NodeId) : Prop :=
  ∃ ds, List.Forall₂ (fun m e => g.derivative name m = (g, e)) ns ds ∧
    ps.length = ns.length ∧
    g.SumOfProducts (ps.zip ds) d

theorem chained_of_represents (hne : ns ≠ []) (hlength : ps.length = ns.length)
    (hknown : ∀ m ∈ ns, (g.derivative? name m).isSome)
    (hd : g.Represents Eq (chainRule Shared.id ps (ns.map (g.derivativeOf name))) d) :
    g.Chained name ns ps d := by
  refine ⟨ns.map (g.derivativeOf name), List.forall₂_map_right_iff.mpr ?_, hlength, ?_⟩
  · refine List.forall₂_same.mpr fun m hm => ?_
    obtain ⟨e, he⟩ := Option.isSome_iff_exists.mp (hknown m hm)
    rw [derivative_of_known he, derivativeOf_eq he]
  · refine sumOfProducts_of_chainRule (fun hnil => ?_) hd
    have hzip := congrArg List.length hnil
    rw [List.length_zip, hlength, List.length_map, Nat.min_self] at hzip
    exact hne (List.length_eq_zero_iff.mp hzip)

/-- Where an operation has a rule of partial derivatives, all its
derivatives are made from the same ones. -/
theorem Recorded.chained (hg : g.Recorded) (hfitting : g.Fitting)
    (hn : g.nodes[n]? = some (.operation op ns)) (hne : ns ≠ [])
    (hq : op.primitive.quotient? Shared.id ns = none) (hd : g.derivative? name n = some d) :
    ∃ ps, g.answer? (.partials n) = some ps ∧ g.Chained name ns ps d := by
  have ha : g.answer? (.derivative n name) = some [d] := by
    rw [answer?, ← derivative?_operation hn, hd]
    rfl
  obtain ⟨b, first, hb, hbears, hanswer⟩ := hg ha
  cases hb with
  | zero hn' =>
    obtain ⟨rfl, rfl⟩ := Node.operation.inj (Option.some.inj (hn.symm.trans hn'))
    exact absurd rfl hne
  | @chain _ _ _ ps _ hn' _ _ hps hknown =>
    obtain ⟨rfl, rfl⟩ := Node.operation.inj (Option.some.inj (hn.symm.trans hn'))
    obtain rfl := List.singleton_injective hanswer
    have hlength := (hfitting hps).2
    rw [operands_eq hn] at hlength
    exact ⟨ps, hps, chained_of_represents hne hlength hknown (represents_laid hbears)⟩
  | quotient hn' _ hq' _ =>
    obtain ⟨rfl, rfl⟩ := Node.operation.inj (Option.some.inj (hn.symm.trans hn'))
    rw [hq] at hq'
    cases hq'

/-- The partial derivatives of a product are its operands, the other way round. -/
theorem Recorded.partials_multiply (hg : g.Recorded) (hf : g.Formed)
    (hn : g.nodes[n]? = some (.operation op ns)) (hop : op.primitive = .multiply)
    (hps : g.answer? (.partials n) = some ps) : ∃ a b, ns = [a, b] ∧ ps = [b, a] := by
  have haccepts : op.primitive.arity.accepts ns.length := (hf hn).primitive
  have hwritten := (hg hps).partials hn
  rw [hop] at haccepts hwritten
  obtain ⟨a, b, rfl⟩ := List.length_eq_two.mp (Arity.accepts_iff.mp haccepts 2 rfl)
  have hswapped : [b, a] = ps := eq_of_represents_leaves hwritten
  exact ⟨a, b, rfl, hswapped.symm⟩

/-- A quotient of the derivative of a sum by a node that represents a
term, where the sum is not that node. -/
def Divided (g : Graph) (name : String) (inner : Primitive) (divisor : Term NodeId)
    (ns : List NodeId) (q : NodeId) : Prop :=
  ∃ sum d v : Nat, g.nodes[sum]? = some (.operation (.any inner) ns) ∧
    g.answer? (.derivative sum name) = some [d] ∧
    g.nodes[q]? = some (.operation (.any .divide) [d, v]) ∧
    g.Represents Eq divisor v ∧ sum ≠ v

theorem Divided.retains {q : NodeId} (hq : g.Divided name inner divisor ns q) (hgh : g.Retains h) :
    h.Divided name inner divisor ns q := by
  obtain ⟨sum, d, v, hsum, hd, hq, hv, hne⟩ := hq
  exact ⟨sum, d, v, hgh.keeps hsum, hgh.answers hd, hgh.keeps hq,
    hv.mono hgh.keeps fun _ _ he => he, hne⟩

/-- The derivatives of roots and logarithms are such quotients. -/
def Quotients (g : Graph) : Prop :=
  ∀ ⦃n : Nat⦄ ⦃op : Operator⦄ ⦃ns : List NodeId⦄
    ⦃inner : Primitive⦄ ⦃divisor : Term NodeId⦄ ⦃name : String⦄ ⦃q : Nat⦄,
    g.nodes[n]? = some (.operation op ns) → ns ≠ [] →
    op.primitive.quotient? Shared.id ns = some (inner, divisor) →
    g.answer? (.derivative n name) = some [q] →
    g.Divided name inner divisor ns q

theorem initial_quotients : initial.Quotients := by
  intro n op ns inner divisor name q _ _ _ ha
  simp [answer?, memo_initial, Memo.empty] at ha

theorem Quotients.grown (hg : g.Quotients) (hw : g.WellFormed) (hgh : g.Grown h) : h.Quotients := by
  intro n op ns inner divisor name q hn hne hq ha
  rw [hgh.answer?] at ha
  exact (hg (hgh.keeps.node_of_lt (lt_of_answer? hw ha) hn) hne hq ha).retains hgh.retains

/-- Of the nodes of a quotient, the last is the quotient itself, and the
others are those of the divisor. -/
theorem Bears.divide (hb : g.Bears first (laid first (.divide (.leaf d) divisor)).1) :
    g.nodes[(laid first (.divide (.leaf d) divisor)).2]? =
        some (.operation (.any .divide) [d, (laid first divisor).2]) ∧
      g.Bears first (laid first divisor).1 := by
  have hlaid : laid first (.divide (.leaf d) divisor) =
      ((laid first divisor).1 ++ [.operation (.any .divide) [d, (laid first divisor).2]],
        first + (laid first divisor).1.length) := by
    simp [Term.divide, laid, laidAll]
  rw [hlaid] at hb ⊢
  exact ⟨hb.right (i := 0) rfl, hb.left⟩

theorem exists_operation_divisor {p : Primitive}
    (hq : p.quotient? Shared.id ns = some (inner, divisor)) :
    ∃ op ts, divisor = .operation op ts := by
  cases p with
  | distance =>
    obtain ⟨-, rfl⟩ := Prod.mk.inj (Option.some.inj hq)
    exact ⟨_, _, rfl⟩
  | lse =>
    obtain ⟨-, rfl⟩ := Prod.mk.inj (Option.some.inj hq)
    exact ⟨_, _, rfl⟩
  | _ => cases hq

/-- A quotient that was worked out just now is divided by a node that comes after the sum. -/
theorem Adds.divided {p : Primitive} {q : NodeId} (ha : g.Adds k h)
    (hblock : g.block g.size k = quotientBlock g.size name inner divisor ns ds)
    (hq : p.quotient? Shared.id ns = some (inner, divisor))
    (hanswer : (g.block g.size k).answer = [q]) : h.Divided name inner divisor ns q := by
  obtain ⟨partials, ps, hps⟩ : ∃ partials ps,
      laidAll (g.size + 1) (inner.partials Shared.id ns) = (partials, ps) := ⟨_, _, rfl⟩
  obtain ⟨products, d, hd⟩ : ∃ products d,
      laid (g.size + 1 + partials.length) (chainRule Shared.id ps ds) = (products, d) :=
        ⟨_, _, rfl⟩
  have hbears := ha.bears
  have hmemo : h.memo g.size = (g.block g.size k).memo := by simpa using ha.made 0
  rw [hblock] at hbears hmemo hanswer
  simp only [quotientBlock, hps, hd] at hbears hmemo hanswer
  have hrest :
      h.Bears (g.size + [Node.operation (.any inner) ns].length) (partials ++ products ++ _) :=
    Bears.right hbears
  have hlast := hrest.right
  rw [List.length_singleton, List.length_append, ← Nat.add_assoc] at hlast
  obtain ⟨hquotient, hdivisor⟩ := hlast.divide
  obtain rfl := List.singleton_injective hanswer
  obtain ⟨op, ts, rfl⟩ := exists_operation_divisor hq
  obtain ⟨nodes, v, hlaid, hle, -⟩ :=
    exists_laid_operation (g.size + 1 + partials.length + products.length) op ts
  refine ⟨g.size, d, _, hbears (i := 0) rfl, ?_, hquotient, represents_laid hdivisor, ?_⟩
  · rw [answer?, hmemo, List.lookup_cons_self]
    rfl
  · rw [hlaid]
    omega

theorem Quotients.adds (hg : g.Quotients) (hw : g.WellFormed) (hk : g.Supplies k)
    (hnone : g.answer? k = none) (ha : g.Adds k h) : h.Quotients := by
  intro n op ns inner divisor name q hn hne hq hanswer
  obtain ⟨b, hb⟩ := hk
  have hretains := ha.retains hw hnone
  rcases ha.answer?_cases hanswer with hold | ⟨rfl, hblock⟩ | hfirst
  · exact (hg (ha.keeps.node_of_lt (lt_of_answer? hw hold) hn) hne hq hold).retains hretains
  · have hn := ha.keeps.node_of_lt (owner_lt_of_plan hb) hn
    exact ha.divided (block_quotient hn hne hq _ _) hq hblock
  · -- A sum to work with has a rule of partial derivatives.
    obtain ⟨_, _, ns', inner', _, _, -, -, -, hq', -, hsum, -⟩ :=
      hb.sum_of_answer ha hfirst (Option.isSome_of_eq_some hanswer)
    obtain rfl : n = g.size := hfirst
    obtain ⟨rfl, rfl⟩ := Node.operation.inj (Option.some.inj (hsum.symm.trans hn))
    rw [Operator.any, Primitive.quotient?_inner hq' ns' Shared.id] at hq
    cases hq

theorem Performs.quotients {ks : List Task} (hp : Performs g ks h) (hw : g.WellFormed)
    (hg : g.Quotients) : h.Quotients := by
  induction hp with
  | nil => exact hg
  | cons hnone hk ha hh _ ih => exact ih hh (hg.adds hw hk hnone ha)

theorem Evolves.quotients (hgh : g.Evolves h) (hg : g.Truthful) (hq : g.Quotients) :
    h.Quotients := by
  cases hgh with
  | grown hgh => exact hq.grown hg.toWellFormed hgh
  | asked hlt =>
    obtain ⟨ks, hks, -⟩ := (ask_serves hg hlt).performs
    exact hks.quotients hg.toWellFormed hq

theorem Evolves.retains (hgh : g.Evolves h) (hg : g.Truthful) : g.Retains h := by
  cases hgh with
  | grown hgh => exact hgh.retains
  | asked hlt => exact (ask_serves hg hlt).retains hg.toWellFormed

/-- A quotient of the derivative of a sum, by a root over the same operands or by what is made from
it. The root is neither the node that the quotient is the derivative of nor the sum, and the
numerator is the derivative of nothing but the sum. -/
structure Ratio (g : Graph) (name : String) (n : NodeId) (inner outer : Primitive)
    (ns : List NodeId) (q numerator divisor root : NodeId) : Prop where
  quotient : g.nodes[q]? = some (.operation (.any .divide) [numerator, divisor])
  chained : ∃ ps, g.Chained name ns ps numerator
  node : g.nodes[root]? = some (.operation (.any outer) ns)
  node_ne : root ≠ n
  sum : ∃ sum : Nat, g.nodes[sum]? = some (.operation (.any inner) ns) ∧ root ≠ sum ∧
    ∀ m < g.size, g.derivative name m = (g, numerator) ↔ m = sum

theorem derivative?_of_derivative (hg : g.Truthful) (hm : m < g.size)
    (hd : g.derivative name m = (g, d)) : g.derivative? name m = some d := by
  have hknown := (derivative_answers hg hm name).known
  rwa [hd] at hknown

/-- A node that is an operation is the derivative of one node at most. -/
theorem Distinct.eq_of_derivative (hg : g.Distinct) (hw : g.WellFormed) (hn : g.operands n ≠ [])
    (hm : m < g.size) (hd : g.derivative? name n = some d) (hd' : g.derivative? name m = some d)
    {es : List NodeId} (hnode : g.nodes[d]? = some (.operation op es)) : m = n := by
  by_cases hnil : g.operands m = []
  · have hleaf (c : Shared) : d ≠ c.id := by
      rintro rfl
      rw [hw.shared c] at hnode
      cases hnode
    rcases hg.shared hm hnil hd' with hzero | hone
    · exact absurd hzero (hleaf .zero)
    · exact absurd hone (hleaf .one)
  · exact (hg.unique ((derives_iff hnil).mpr hd') ((derives_iff hn).mpr hd)).1

section Ratio

variable (hg : g.Truthful) (hrecorded : g.Recorded) (hdistinct : g.Distinct) (hacyclic : g.Acyclic)
  (hquotients : g.Quotients) (hn : g.nodes[n]? = some (.operation op ns)) (hne : ns ≠ [])

include hg hrecorded hdistinct hacyclic hquotients hn hne

/-- The derivative of a root or a logarithm, and the node it is divided by. -/
theorem exists_ratio {q : NodeId} (hq : op.primitive.quotient? Shared.id ns = some (inner, divisor))
    (hd : g.derivative? name n = some q) : ∃ numerator v, g.Represents Eq divisor v ∧
      ∀ {root : Nat} {outer : Primitive}, ReflTransGen g.Links v root →
        g.nodes[root]? = some (.operation (.any outer) ns) → (root = v ∨ outer ≠ inner) →
        g.Ratio name n inner outer ns q numerator v root := by
  have ha : g.answer? (.derivative n name) = some [q] := by
    rw [answer?, ← derivative?_operation hn, hd]
    rfl
  obtain ⟨sum, numerator, v, hsum, hanswer, hquotient, hv, hvne⟩ := hquotients hn hne hq ha
  have hnumerator : g.derivative? name sum = some numerator := by
    rw [derivative?_operation hsum]
    simpa [answer?] using hanswer
  obtain ⟨ps, -, hchained⟩ :=
    hrecorded.chained hdistinct.fitting hsum hne (Primitive.quotient?_inner hq _ _) hnumerator
  refine ⟨numerator, v, hv, fun {root outer} hpath hroot hcases => ?_⟩
  refine ⟨hquotient, ⟨ps, hchained⟩, hroot, ?_, sum, hsum, ?_,
    fun m hm => ⟨fun hderivative => ?_, ?_⟩⟩
  · -- The node leads to its derivative, and that to the root.
    rintro rfl
    have hdivisor : g.Links q v := .inl (mem_operands.mpr ⟨_, _, hquotient, by simp⟩)
    have hback : TransGen g.Links q root := .trans_left (.single hdivisor) hpath
    exact hacyclic root
      (.head (.inr (.inr ⟨name, (derivative?_operation hn name).symm.trans hd⟩)) hback)
  · rcases hcases with rfl | houter
    · exact hvne.symm
    · rintro rfl
      obtain ⟨heq, -⟩ := Node.operation.inj (Option.some.inj (hroot.symm.trans hsum))
      exact houter (congrArg Operator.primitive heq)
  · obtain ⟨es, -, -, hsumOfProducts⟩ := hchained
    obtain ⟨_, _, hnode⟩ := hsumOfProducts.operation
    have hm' := derivative?_of_derivative hg hm hderivative
    exact hdistinct.eq_of_derivative hg.toWellFormed
      (by rwa [operands_eq hsum]) hm hnumerator hm' hnode
  · rintro rfl
    exact derivative_of_known hnumerator

theorem exists_ratio_distance {q : NodeId} (hop : op.primitive = .distance)
    (hd : g.derivative? name n = some q) : ∃ numerator divisor root,
      g.Ratio name n .sumsq .distance ns q numerator divisor root ∧
        g.nodes[divisor]? = some (.operation (.any .multiply) [Shared.two.id, root]) := by
  have hq : op.primitive.quotient? Shared.id ns = some (.sumsq,
      .multiply (.leaf Shared.two.id) (.operation (.any .distance) (ns.map .leaf))) := by
    rw [hop]
    rfl
  obtain ⟨numerator, v, hv, hratio⟩ :=
    exists_ratio hg hrecorded hdistinct hacyclic hquotients hn hne hq hd
  obtain ⟨two, root, hnode, htwo, hroot⟩ := represents_pair_iff.mp hv
  obtain rfl := represents_leaf_iff.mp htwo
  have hlink : g.Links v root := .inl (mem_operands.mpr ⟨_, _, hnode, by simp⟩)
  exact ⟨numerator, v, root, hratio (.single hlink) hroot.over_leaves (.inr (by decide)), hnode⟩

theorem exists_ratio_lse {q : NodeId} (hop : op.primitive = .lse)
    (hd : g.derivative? name n = some q) :
    ∃ numerator root, g.Ratio name n .sumexp .sumexp ns q numerator root root := by
  have hq : op.primitive.quotient? Shared.id ns =
      some (.sumexp, .operation (.any .sumexp) (ns.map .leaf)) := by
    rw [hop]
    rfl
  obtain ⟨numerator, root, hroot, hratio⟩ :=
    exists_ratio hg hrecorded hdistinct hacyclic hquotients hn hne hq hd
  exact ⟨numerator, root, hratio .refl hroot.over_leaves (.inl rfl)⟩

end Ratio

end Fluxion.Graph

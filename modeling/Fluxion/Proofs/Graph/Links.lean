import Fluxion.Proofs.Graph.Requests

namespace Fluxion

/-- The node is among what is remembered. -/
def Memo.Holds (memo : Memo) (m : NodeId) : Prop :=
  (∃ ps, memo.partials? = some ps ∧ m ∈ ps) ∨
    ∃ name, memo.derivatives.lookup name = some m

namespace Graph

/-- The first node leads to the second. -/
def Links (g : Graph) (n m : NodeId) : Prop := m ∈ g.operands n ∨ (g.memo n).Holds m

variable {g h : Graph} {n m first i : Nat} {name : String} {op : Operator} {ns ps ds : List NodeId}
  {nodes more : List Node} {k : Task} {Given Given' : NodeId → Prop}

theorem holds_iff : (g.memo n).Holds m ↔
    ∃ k answer, k.owner = n ∧ g.answer? k = some answer ∧ m ∈ answer := by
  constructor
  · rintro (⟨ps, hps, hm⟩ | ⟨name, hd⟩)
    · exact ⟨.partials n, ps, rfl, hps, hm⟩
    · exact ⟨.derivative n name, [m], rfl, by rw [answer?, hd]; rfl, List.mem_singleton_self m⟩
  · rintro ⟨k, answer, rfl, ha, hm⟩
    cases k with
    | partials n => exact .inl ⟨answer, ha, hm⟩
    | derivative n name =>
      obtain ⟨d, hd, rfl⟩ := Option.map_eq_some_iff.mp ha
      obtain rfl := List.mem_singleton.mp hm
      exact .inr ⟨name, hd⟩

@[simp] theorem not_holds_empty (m : NodeId) : ¬ Memo.empty.Holds m := by
  simp [Memo.Holds, Memo.empty]

/-- Operations over given nodes and over nodes that come before them, from `first` on. -/
def Over (Given : NodeId → Prop) (first : Nat) (nodes : List Node) : Prop :=
  ∀ ⦃i : Nat⦄ ⦃op : Operator⦄ ⦃ns : List NodeId⦄ ⦃m : Nat⦄,
    nodes[i]? = some (.operation op ns) → m ∈ ns → Given m ∨ first ≤ m ∧ m < first + i

theorem Over.mono (hn : Over Given first nodes) (hg : ∀ m, Given m → Given' m) :
    Over Given' first nodes :=
  fun _ _ _ _ hi hm => (hn hi hm).imp (hg _) id

theorem Over.append (hn : Over Given first nodes)
    (hm : Over (fun m : Nat => Given m ∨ first ≤ m ∧ m < first + nodes.length)
      (first + nodes.length) more) :
    Over Given first (nodes ++ more) := by
  intro i op ns m hi hmem
  rw [List.getElem?_append] at hi
  split at hi
  · exact hn hi hmem
  · rcases hm hi hmem with (hgiven | hin) | hin
    · exact .inl hgiven
    · exact .inr (by omega)
    · exact .inr (by omega)

theorem over_nil : Over Given first [] := fun _ _ _ _ hi => nomatch hi

theorem over_operation (hns : ∀ m ∈ ns, Given m) : Over Given first [.operation op ns] := by
  intro i op' ns' m hi hm
  obtain rfl : i = 0 := by
    have hlt := (List.getElem?_eq_some_iff.mp hi).1
    simpa using hlt
  obtain ⟨-, rfl⟩ : op = op' ∧ ns = ns' := by simpa using hi
  exact .inl (hns m hm)

/-- The nodes of a term come to lie over its leaves, and so does the term's own node. -/
structure Lies (Given : NodeId → Prop) (first : Nat) (nodes : List Node)
    (answer : List NodeId) : Prop where
  operands : Over Given first nodes
  answer : ∀ m : Nat, m ∈ answer → Given m ∨ first ≤ m ∧ m < first + nodes.length

theorem laidAll_lies {ts : List (Term NodeId)}
    (hts : ∀ t ∈ ts, ∀ first, ∀ Given : NodeId → Prop, (∀ m ∈ t.leaves, Given m) →
      Lies Given first (laid first t).1 [(laid first t).2])
    (hleaves : ∀ t ∈ ts, ∀ m ∈ t.leaves, Given m) :
    Lies Given first (laidAll first ts).1 (laidAll first ts).2 := by
  induction ts generalizing first Given with
  | nil => exact ⟨over_nil, fun m hm => nomatch hm⟩
  | cons t ts ih =>
    obtain ⟨hleaves, hrest⟩ := List.forall_mem_cons.mp hleaves
    have hfirst := hts t List.mem_cons_self first Given hleaves
    have hall : Lies Given (first + (laid first t).1.length) _ _ :=
      ih (fun u hu => hts u (List.mem_cons_of_mem _ hu)) hrest
    refine ⟨hfirst.operands.append (hall.operands.mono fun m hm => .inl hm), fun m hm => ?_⟩
    simp only [laidAll, List.length_append] at hm ⊢
    rcases List.mem_cons.mp hm with rfl | hm
    · rcases hfirst.answer _ (List.mem_singleton_self _) with hgiven | hin
      · exact .inl hgiven
      · exact .inr (by omega)
    · rcases hall.answer m hm with hgiven | hin
      · exact .inl hgiven
      · exact .inr (by omega)

theorem laid_lies {t : Term NodeId} (hleaves : ∀ m ∈ t.leaves, Given m) :
    Lies Given first (laid first t).1 [(laid first t).2] := by
  induction t using Term.induct generalizing first Given with
  | onLeaf n => exact ⟨over_nil, fun m hm => .inl (hleaves m hm)⟩
  | onOperation op ts ih =>
    have hall : Lies Given first (laidAll first ts).1 (laidAll first ts).2 :=
      laidAll_lies (fun t ht first Given h => ih t ht h) fun t ht m hm =>
        hleaves m (Term.mem_leaves_operand ht hm)
    refine ⟨hall.operands.append (over_operation hall.answer), fun m hm => ?_⟩
    obtain rfl := List.mem_singleton.mp hm
    simp [laid]

theorem Lies.append {answer answer' : List NodeId} (hn : Lies Given first nodes answer)
    (hm : Lies (fun m : Nat => Given m ∨ first ≤ m ∧ m < first + nodes.length)
      (first + nodes.length) more answer') :
    Lies Given first (nodes ++ more) answer' := by
  refine ⟨hn.operands.append hm.operands, fun m hmem => ?_⟩
  rw [List.length_append]
  rcases hm.answer m hmem with (hgiven | hin) | hin
  · exact .inl hgiven
  · exact .inr (by omega)
  · exact .inr (by omega)

theorem partials_lies (p : Primitive) (hns : ∀ m ∈ ns, Given m)
    (hshared : ∀ c : Shared, Given c.id) :
    Lies Given first (laidAll first (p.partials Shared.id ns)).1
      (laidAll first (p.partials Shared.id ns)).2 := by
  refine laidAll_lies (fun t _ first Given h => laid_lies h) fun t ht m hm => ?_
  rcases Primitive.mem_leaves_partials ht hm with hm | ⟨c, rfl⟩
  · exact hns m hm
  · exact hshared c

theorem chainRule_lies (hps : ∀ m ∈ ps, Given m) (hds : ∀ m ∈ ds, Given m)
    (hshared : ∀ c : Shared, Given c.id) :
    Lies Given first (laid first (chainRule Shared.id ps ds)).1
      [(laid first (chainRule Shared.id ps ds)).2] := by
  refine laid_lies fun m hm => ?_
  rcases mem_leaves_chainRule hm with hm | hm | ⟨c, rfl⟩
  · exact hps m hm
  · exact hds m hm
  · exact hshared c

/-- Where a node of a block comes among those it can lead to. The nodes are in order, but that a
sum, which is the first, leads to what its derivative is made from. -/
def Block.rank (b : Block) (i : Nat) : Nat :=
  if i = 0 ∧ b.memo.partials?.isSome then b.nodes.length else i

/-- What a block leads to is given or in the block, and from one of its
nodes to the next one goes down. -/
structure Block.Closed (b : Block) (Given : NodeId → Prop) (first : Nat) : Prop where
  operands : ∀ {i : Nat} {op : Operator} {ns : List NodeId} {m : Nat},
    b.nodes[i]? = some (.operation op ns) → m ∈ ns → Given m ∨
      ∃ j, m = first + j ∧ j < b.nodes.length ∧ b.rank j < b.rank i
  memo : ∀ {m : Nat}, b.memo.Holds m → Given m ∨
    ∃ j, m = first + j ∧ j < b.nodes.length ∧ b.rank j < b.rank 0
  answer : ∀ {m : Nat}, m ∈ b.answer → Given m ∨ ∃ j, m = first + j ∧ j < b.nodes.length

theorem Lies.closed {answer : List NodeId} (hl : Lies Given first nodes answer) :
    (Block.mk nodes .empty answer).Closed Given first where
  operands {i op ns m} hi hm := by
    have hlt : i < nodes.length := (List.getElem?_eq_some_iff.mp hi).1
    refine (hl.operands hi hm).imp id fun hin => ⟨m - first, by omega, ?_, ?_⟩
    · change m - first < nodes.length
      omega
    · simp only [Block.rank, Memo.empty, Option.isSome_none, Bool.false_eq_true,
        and_false, if_false]
      omega
  memo hm := absurd hm (not_holds_empty _)
  answer {m} hm := by
    refine (hl.answer m hm).imp id fun hin => ⟨m - first, by omega, ?_⟩
    change m - first < nodes.length
    omega

/-- A sum in front of what its derivative is made from. -/
theorem Lies.closed_sum {rest : List Node} {answer : List NodeId} {d : NodeId}
    (hrest : Lies Given (first + 1) rest answer) (hns : ∀ m ∈ ns, Given m)
    (hmemo : ∀ m : Nat, m ∈ ps ++ [d] →
      Given m ∨ first + 1 ≤ m ∧ m < first + 1 + rest.length) :
    (Block.mk (.operation op ns :: rest) ⟨some ps, [(name, d)]⟩ answer).Closed Given first := by
  have hin {m : Nat} (hm : first + 1 ≤ m ∧ m < first + 1 + rest.length) :
      ∃ j, m = first + (j + 1) ∧ j < rest.length := ⟨m - (first + 1), by omega⟩
  refine ⟨fun {i op' ms m} hi hm => ?_, fun {m} hm => ?_, fun {m} hm => ?_⟩
  · cases i with
    | zero =>
      obtain ⟨-, rfl⟩ : _ ∧ ns = ms := by simpa using hi
      exact .inl (hns m hm)
    | succ i =>
      have hi : rest[i]? = some (.operation op' ms) := hi
      have hlt := (List.getElem?_eq_some_iff.mp hi).1
      refine (hrest.operands hi hm).imp id fun hm => ⟨m - first, by omega, ?_, ?_⟩
      · rw [List.length_cons]
        omega
      · rw [Block.rank, Block.rank, if_neg (by omega), if_neg (by omega)]
        omega
  · have hm : m ∈ ps ++ [d] := by
      rcases hm with ⟨ps', hps', hm⟩ | ⟨other, hd⟩
      · obtain rfl : ps = ps' := by simpa using hps'
        exact List.mem_append_left _ hm
      · obtain ⟨before, after, he, -⟩ := List.lookup_eq_some_iff.mp hd
        have hmem : (other, m) ∈ [(name, d)] := by
          change [(name, d)] = _ at he
          simp [he]
        obtain ⟨-, rfl⟩ : other = name ∧ m = d := by simpa using hmem
        exact List.mem_append_right _ (List.mem_singleton_self _)
    refine (hmemo m hm).imp id fun hm => ?_
    obtain ⟨j, rfl, hj⟩ := hin hm
    refine ⟨j + 1, rfl, Nat.succ_lt_succ hj, ?_⟩
    simp [Block.rank, hj]
  · refine (hrest.answer m hm).imp id fun hm => ?_
    obtain ⟨j, rfl, hj⟩ := hin hm
    exact ⟨j + 1, rfl, Nat.succ_lt_succ hj⟩

theorem partialsBlock_closed {p : Primitive} (hns : ∀ m ∈ ns, Given m)
    (hshared : ∀ c : Shared, Given c.id) : (partialsBlock first p ns).Closed Given first :=
  (partials_lies p hns hshared).closed

theorem chainBlock_closed (hps : ∀ m ∈ ps, Given m) (hds : ∀ m ∈ ds, Given m)
    (hshared : ∀ c : Shared, Given c.id) : (chainBlock first ps ds).Closed Given first :=
  (chainRule_lies hps hds hshared).closed

theorem quotientBlock_closed {inner : Primitive} {divisor : Term NodeId}
    (hns : ∀ m ∈ ns, Given m) (hds : ∀ m ∈ ds, Given m)
    (hdivisor : ∀ m ∈ divisor.leaves, Given m) (hshared : ∀ c : Shared, Given c.id) :
    (quotientBlock first name inner divisor ns ds).Closed Given first := by
  obtain ⟨partials, ps, hps⟩ : ∃ partials ps,
      laidAll (first + 1) (inner.partials Shared.id ns) = (partials, ps) := ⟨_, _, rfl⟩
  obtain ⟨products, d, hd⟩ : ∃ products d,
      laid (first + 1 + partials.length) (chainRule Shared.id ps ds) = (products, d) :=
        ⟨_, _, rfl⟩
  obtain ⟨quotient, q, hq⟩ : ∃ quotient q, laid (first + 1 + (partials ++ products).length)
      (.divide (.leaf d) divisor) = (quotient, q) := ⟨_, _, rfl⟩
  -- What comes after the sum does not lead back to it.
  have hpartials : Lies Given (first + 1) partials ps := by
    have hl : Lies Given (first + 1) _ _ := partials_lies inner hns hshared
    simpa only [hps] using hl
  have hproducts : Lies Given (first + 1) (partials ++ products) [d] := by
    refine hpartials.append ?_
    have hl : Lies _ (first + 1 + partials.length) _ _ :=
      chainRule_lies hpartials.answer (fun m hm => .inl (hds m hm)) fun c => .inl (hshared c)
    simpa only [hd] using hl
  have hquotient : Lies Given (first + 1) (partials ++ products ++ quotient) [q] := by
    refine hproducts.append ?_
    have hleaves : ∀ m : Nat, m ∈ (Term.divide (.leaf d) divisor).leaves →
        Given m ∨ first + 1 ≤ m ∧ m < first + 1 + (partials ++ products).length := by
      intro m hm
      rcases List.mem_cons.mp
        (show m ∈ d :: divisor.leaves by simpa [Term.divide] using hm) with rfl | hm
      · exact hproducts.answer _ (List.mem_singleton_self _)
      · exact .inl (hdivisor m hm)
    have hl : Lies _ (first + 1 + (partials ++ products).length) _ _ := laid_lies hleaves
    simpa only [hq] using hl
  have hblock : quotientBlock first name inner divisor ns ds =
      ⟨.operation (.any inner) ns :: (partials ++ products ++ quotient),
        ⟨some ps, [(name, d)]⟩, [q]⟩ := by
    rw [List.length_append, ← Nat.add_assoc] at hq
    simp only [quotientBlock, hps, hd, hq]
  have hmemo : ∀ m : Nat, m ∈ ps ++ [d] → Given m ∨
      first + 1 ≤ m ∧ m < first + 1 + (partials ++ products ++ quotient).length := by
    intro m hm
    rw [List.length_append]
    rcases List.mem_append.mp hm with hm | hm
    · refine (hpartials.answer m hm).imp id fun hin => ?_
      rw [List.length_append]
      omega
    · exact (hproducts.answer m hm).imp id fun hin => by omega
  rw [hblock]
  exact hquotient.closed_sum hns hmemo

/-- What a task is made from. -/
inductive Source (g : Graph) : Task → NodeId → Prop
  | shared {k : Task} (c : Shared) : Source g k c.id
  | operand {k : Task} {m : Nat} : m ∈ g.operands k.owner → Source g k m
  | ofPartials {n : Nat} {name : String} {ps : List NodeId} {p : Nat} :
      g.answer? (.partials n) = some ps → p ∈ ps → Source g (.derivative n name) p
  | ofOperand {n : Nat} {name : String} {m : Nat} :
      m ∈ g.operands n → Source g (.derivative n name) (g.derivativeOf name m)

theorem block_closed (g : Graph) (first : Nat) (k : Task) :
    (g.block first k).Closed (g.Source k) first := by
  have hempty (answer : List NodeId) (ha : ∀ m ∈ answer, g.Source k m) :
      (Block.mk [] .empty answer).Closed (g.Source k) first :=
    Lies.closed ⟨over_nil, fun m hm => .inl (ha m hm)⟩
  by_cases hop : ∃ op ns, g.nodes[k.owner]? = some (.operation op ns)
  · obtain ⟨op, ns, hn⟩ := hop
    have hns : ∀ m ∈ ns, g.Source k m := fun m hm => .operand (by rwa [operands_eq hn])
    cases k with
    | partials n =>
      have hn : g.nodes[n]? = some (.operation op ns) := hn
      rw [block_partials hn]
      exact partialsBlock_closed hns .shared
    | derivative n name =>
      have hn : g.nodes[n]? = some (.operation op ns) := hn
      have hds : ∀ m ∈ ns.map (g.derivativeOf name), g.Source (.derivative n name) m :=
        List.forall_mem_map.mpr fun m hm => .ofOperand (by rwa [operands_eq hn])
      by_cases hnil : ns = []
      · subst ns
        rw [block_nil hn]
        exact hempty _ (List.forall_mem_singleton.mpr (.shared .zero))
      · cases hq : op.primitive.quotient? Shared.id ns with
        | none =>
          rw [block_chain hn hnil hq]
          refine chainBlock_closed (fun p hp => ?_) hds .shared
          cases ha : g.answer? (.partials n) with
          | none => simp [ha] at hp
          | some ps => exact .ofPartials ha (by simpa [ha] using hp)
        | some q =>
          obtain ⟨inner, divisor⟩ := q
          rw [block_quotient hn hnil hq]
          refine quotientBlock_closed hns hds (fun m hm => ?_) .shared
          rcases Primitive.mem_leaves_quotient hq hm with hm | ⟨c, rfl⟩
          · exact hns m hm
          · exact .shared c
  · rw [block_of_not_operation hop]
    exact hempty [] fun m hm => absurd hm List.not_mem_nil

end Graph
end Fluxion

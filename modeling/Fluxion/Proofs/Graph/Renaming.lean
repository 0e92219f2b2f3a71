import Mathlib.Data.Set.Function
import Mathlib.Order.Interval.Set.Defs
import Fluxion.Proofs.Graph.Account

namespace Fluxion

def Node.map (f : NodeId → NodeId) : Node → Node
  | .leaf l => .leaf l
  | .operation op ns => .operation op (ns.map f)

def Memo.map (f : NodeId → NodeId) (memo : Memo) : Memo :=
  ⟨memo.partials?.map (List.map f), memo.derivatives.map fun (name, d) => (name, f d)⟩

namespace Graph

def Task.map (f : NodeId → NodeId) : Task → Task
  | .partials n => .partials (f n)
  | .derivative n name => .derivative (f n) name

def Block.map (f : NodeId → NodeId) (b : Block) : Block :=
  ⟨b.nodes.map (Node.map f), b.memo.map f, b.answer.map f⟩

variable {g h₁ h₂ : Graph} {f : NodeId → NodeId} {n m s t : Nat} {name : String}
  {op : Operator} {ns ps ds : List NodeId} {k l : Task} {b : Nat → Block}
  {start₁ start₂ : Task → Nat}

/-- The new nodes from `s` on are moved to `t`. -/
def Moves (f : NodeId → NodeId) (s t count : Nat) : Prop := ∀ i < count, f (s + i) = t + i

theorem Moves.left {a b : Nat} (h : Moves f s t (a + b)) : Moves f s t a :=
  fun i hi => h i (by omega)

theorem Moves.right {a b : Nat} (h : Moves f s t (a + b)) : Moves f (s + a) (t + a) b := by
  intro i hi
  rw [Nat.add_assoc, Nat.add_assoc]
  exact h (a + i) (by omega)

theorem laidAll_map {ts : List (Term NodeId)}
    (hts : ∀ u ∈ ts, ∀ s t, Moves f s t (laid s u).1.length →
      laid t (u.map f) = ((laid s u).1.map (Node.map f), f (laid s u).2))
    (hf : Moves f s t (laidAll s ts).1.length) :
    laidAll t (ts.map (Term.map f)) =
      ((laidAll s ts).1.map (Node.map f), (laidAll s ts).2.map f) := by
  induction ts generalizing s t with
  | nil => rfl
  | cons u ts ih =>
    simp only [laidAll, List.length_append] at hf
    have hfirst := hts u List.mem_cons_self s t hf.left
    have hrest := ih (fun v hv => hts v (List.mem_cons_of_mem _ hv)) hf.right
    simp only [List.map_cons, laidAll, hfirst, List.length_map, hrest, List.map_append]

theorem laid_map (u : Term NodeId) (hf : Moves f s t (laid s u).1.length) :
    laid t (u.map f) = ((laid s u).1.map (Node.map f), f (laid s u).2) := by
  induction u using Term.induct generalizing s t with
  | onLeaf n => rfl
  | onOperation op us ih =>
    simp only [laid, List.length_append, List.length_singleton] at hf
    have hall := laidAll_map (fun u hu s t => ih u hu) hf.left
    have hlast := hf.right 0 Nat.one_pos
    rw [Term.map_operation, laid, hall]
    simpa [laid, Node.map] using hlast.symm

/-- The shared constants stay where they are. -/
def FixesShared (f : NodeId → NodeId) : Prop := ∀ c : Shared, f c.id = c.id

theorem partialsBlock_map (hshared : FixesShared f) {p : Primitive}
    (hf : Moves f s t (partialsBlock s p ns).nodes.length) :
    partialsBlock t p (ns.map f) = (partialsBlock s p ns).map f := by
  have hmap := Primitive.partials_map f Shared.id p ns
  rw [funext hshared] at hmap
  simp only [partialsBlock] at hf ⊢
  rw [hmap, laidAll_map (fun u _ _ _ => laid_map u) hf]
  rfl

theorem chainBlock_map (hshared : FixesShared f)
    (hf : Moves f s t (chainBlock s ps ds).nodes.length) :
    chainBlock t (ps.map f) (ds.map f) = (chainBlock s ps ds).map f := by
  have hmap := chainRule_map f Shared.id ps ds
  rw [funext hshared] at hmap
  simp only [chainBlock] at hf ⊢
  rw [hmap, laid_map _ hf]
  rfl

theorem quotientBlock_map (hshared : FixesShared f) {inner : Primitive} {divisor : Term NodeId}
    (hf : Moves f s t (quotientBlock s name inner divisor ns ds).nodes.length) :
    quotientBlock t name inner (divisor.map f) (ns.map f) (ds.map f) =
      (quotientBlock s name inner divisor ns ds).map f := by
  have hpartials := Primitive.partials_map f Shared.id inner ns
  rw [funext hshared] at hpartials
  obtain ⟨partials, ps, hps⟩ : ∃ partials ps,
      laidAll (s + 1) (inner.partials Shared.id ns) = (partials, ps) := ⟨_, _, rfl⟩
  have hchain := chainRule_map f Shared.id ps ds
  rw [funext hshared] at hchain
  obtain ⟨products, d, hd⟩ : ∃ products d,
      laid (s + 1 + partials.length) (chainRule Shared.id ps ds) = (products, d) := ⟨_, _, rfl⟩
  obtain ⟨quotient, q, hq⟩ : ∃ quotient q, laid (s + 1 + partials.length + products.length)
      (.divide (.leaf d) divisor) = (quotient, q) := ⟨_, _, rfl⟩
  simp only [quotientBlock, hps, hd, hq, List.length_cons, List.length_append] at hf ⊢
  have hinner : Moves f (s + 1) (t + 1) (partials.length + products.length + quotient.length) := by
    rw [Nat.add_comm _ 1] at hf
    exact hf.right
  have hlast : Moves f (s + 1 + partials.length + products.length)
      (t + 1 + partials.length + products.length)
      quotient.length := by
    simpa only [Nat.add_assoc] using hinner.right
  have hps' := laidAll_map (f := f) (s := s + 1) (t := t + 1) (fun u _ _ _ => laid_map u) (by
    rw [hps]
    exact hinner.left.left)
  rw [hps, ← hpartials] at hps'
  have hd' := laid_map (f := f) (s := s + 1 + partials.length) (t := t + 1 + partials.length)
    (chainRule Shared.id ps ds) (by
      rw [hd]
      exact hinner.left.right)
  rw [hd, ← hchain] at hd'
  have hq' := laid_map (.divide (.leaf d) divisor) (by
    rw [hq]
    exact hlast)
  rw [hq] at hq'
  have hdivide : (Term.divide (.leaf d) divisor).map f = .divide (.leaf (f d)) (divisor.map f) := by
    simp [Term.divide]
  rw [hdivide] at hq'
  simp only [hps', List.length_map, hd', hq', Block.map, Memo.map, Node.map, List.map_cons,
    List.map_append, List.map_nil, Option.map_some]

theorem map_eq_self (hfixed : ∀ n : Nat, n < g.size → f n = n) {ns : List NodeId}
    (hns : ∀ n : Nat, n ∈ ns → n < g.size) : ns.map f = ns :=
  (List.map_congr_left fun n hn => hfixed n (hns n hn)).trans (List.map_id ns)

section Block

variable (hg : g.WellFormed) (hk₁ : g.Keeps h₁) (hk₂ : g.Keeps h₂)
  (hfixed : ∀ n : Nat, n < g.size → f n = n)

include hg hk₁ hk₂ hfixed

theorem block_partials_map (hn : n < g.size)
    (hf : Moves f s t (h₁.block s (.partials n)).nodes.length) :
    h₂.block t (.partials n) = (h₁.block s (.partials n)).map f := by
  obtain ⟨node, hnode⟩ := exists_node hn
  cases node with
  | leaf l =>
    rw [block_of_not_operation (by simp [Task.owner, hk₂ hnode]),
      block_of_not_operation (by simp [Task.owner, hk₁ hnode])]
    rfl
  | operation op ns =>
    rw [block_partials (hk₁ hnode)] at hf ⊢
    rw [block_partials (hk₂ hnode), ← partialsBlock_map (fun c => hfixed _ (hg.shared_lt c)) hf,
      map_eq_self hfixed fun m hm => hg.operand_lt_size hnode hm]

theorem block_derivative_map (hn : n < g.size)
    (hpartials : h₂.answer? (.partials n) = (h₁.answer? (.partials n)).map (List.map f))
    (hderivatives : ∀ m ∈ g.operands n, h₂.derivativeOf name m = f (h₁.derivativeOf name m))
    (hf : Moves f s t (h₁.block s (.derivative n name)).nodes.length) :
    h₂.block t (.derivative n name) = (h₁.block s (.derivative n name)).map f := by
  have hshared : FixesShared f := fun c => hfixed _ (hg.shared_lt c)
  obtain ⟨node, hnode⟩ := exists_node hn
  cases node with
  | leaf l =>
    rw [block_of_not_operation (by simp [Task.owner, hk₂ hnode]),
      block_of_not_operation (by simp [Task.owner, hk₁ hnode])]
    rfl
  | operation op ns =>
    have hns : ns.map f = ns := map_eq_self hfixed fun m hm => hg.operand_lt_size hnode hm
    rw [operands_eq hnode] at hderivatives
    have hds : ns.map (h₂.derivativeOf name) = (ns.map (h₁.derivativeOf name)).map f := by
      rw [List.map_map]
      exact List.map_congr_left hderivatives
    by_cases hnil : ns = []
    · subst ns
      rw [block_nil (hk₁ hnode), block_nil (hk₂ hnode)]
      simp [Block.map, Memo.map, Memo.empty, hshared .zero]
    · cases hq : op.primitive.quotient? Shared.id ns with
      | none =>
        rw [block_chain (hk₁ hnode) hnil hq] at hf ⊢
        rw [block_chain (hk₂ hnode) hnil hq, ← chainBlock_map hshared hf, hds, hpartials]
        cases h₁.answer? (.partials n) <;> rfl
      | some q =>
        obtain ⟨inner, divisor⟩ := q
        have hdivisor : divisor.map f = divisor := by
          have hmap := Primitive.quotient?_map f Shared.id op.primitive ns
          rw [funext hshared, hns, hq, Option.map_some] at hmap
          exact (congrArg Prod.snd (Option.some.inj hmap)).symm
        rw [block_quotient (hk₁ hnode) hnil hq] at hf ⊢
        rw [block_quotient (hk₂ hnode) hnil hq, ← quotientBlock_map hshared hf,
          hdivisor, hns, hds]

end Block

/-- What was there stays, and every block goes to where the other graph has it. -/
structure Follows (g h₁ : Graph) (start₁ start₂ : Task → Nat)
    (f : NodeId → NodeId) : Prop where
  fixed : ∀ n : Nat, n < g.size → f n = n
  moved : ∀ {k : Task}, Done g h₁ k →
    Moves f (start₁ k) (start₂ k) (h₁.made start₁ k).nodes.length

open Classical in
theorem Account.exists_follows (hacc : Account g h₁ start₁) (start₂ : Task → Nat) :
    ∃ f, Follows g h₁ start₁ start₂ f := by
  let Within (n : Nat) : Prop := ∃ q : Task × Nat, Done g h₁ q.1 ∧
    q.2 < (h₁.made start₁ q.1).nodes.length ∧ n = start₁ q.1 + q.2
  refine ⟨fun n => if h : Within n then start₂ h.choose.1 + h.choose.2 else n, fun n hn => ?_,
    fun {k} hk i hi => ?_⟩
  · refine dif_neg ?_
    rintro ⟨q, hq, hi, rfl⟩
    exact Nat.not_lt.mpr (hacc.placed hq hi).1 hn
  · have h : Within (start₁ k + i) := ⟨(k, i), hk, hi, rfl⟩
    obtain ⟨hq, hlt, heq⟩ := h.choose_spec
    have hsame := hacc.apart hk hq hi hlt heq
    rw [← hsame] at heq
    simp only [dif_pos h, ← hsame]
    exact congrArg _ (Nat.add_left_cancel heq).symm

theorem derivativeOf_map (hshared : FixesShared f) (hk₁ : g.Keeps h₁) (hk₂ : g.Keeps h₂)
    (hn : n < g.size)
    (ha : h₂.answer? (.derivative n name) =
      (h₁.answer? (.derivative n name)).map (List.map f)) :
    h₂.derivativeOf name n = f (h₁.derivativeOf name n) := by
  obtain ⟨node, hnode⟩ := exists_node hn
  cases node with
  | leaf l =>
    rw [derivativeOf_eq (derivative?_leaf (hk₁ hnode) name),
      derivativeOf_eq (derivative?_leaf (hk₂ hnode) name), hshared]
  | operation op ns =>
    rw [derivativeOf, derivativeOf, derivative?_operation (hk₁ hnode),
      derivative?_operation (hk₂ hnode)]
    simp only [answer?] at ha
    cases hd₁ : (h₁.memo n).derivatives.lookup name <;>
      cases hd₂ : (h₂.memo n).derivatives.lookup name <;>
      simp_all [hshared .zero]

section Follows

variable (hg : g.Truthful) (hs : g.Settled) (hacc₁ : Account g h₁ start₁)
  (hacc₂ : Account g h₂ start₂) (hdone : ∀ k, Done g h₁ k ↔ Done g h₂ k)
  (hf : Follows g h₁ start₁ start₂ f)

include hg hs hacc₁ hacc₂ hdone hf

theorem Follows.answer?_of_made (hk : k.owner < g.size)
    (hmade : Done g h₁ k → h₂.made start₂ k = (h₁.made start₁ k).map f) :
    h₂.answer? k = (h₁.answer? k).map (List.map f) := by
  cases hbefore : g.answer? k with
  | some answer =>
    rw [hacc₁.retains.answers hbefore, hacc₂.retains.answers hbefore, Option.map_some,
      map_eq_self hf.fixed (hg.answer?_lt hs hbefore)]
  | none =>
    by_cases hdone₁ : Done g h₁ k
    · rw [hacc₁.answered hdone₁, hacc₂.answered ((hdone k).mp hdone₁), hmade hdone₁]
      rfl
    · have hnone₁ : h₁.answer? k = none := by
        rw [← Option.not_isSome_iff_eq_none]
        exact fun hsome => hdone₁ ⟨hk, hbefore, hsome⟩
      have hnone₂ : h₂.answer? k = none := by
        rw [← Option.not_isSome_iff_eq_none]
        exact fun hsome => hdone₁ ((hdone k).mpr ⟨hk, hbefore, hsome⟩)
      rw [hnone₁, hnone₂, Option.map_none]

/-- Every task makes the same block in both graphs. -/
theorem Follows.made_map (hk : Done g h₁ k) :
    h₂.made start₂ k = (h₁.made start₁ k).map f := by
  have hw := hg.toWellFormed
  have hkeeps₁ := hacc₁.retains.keeps
  have hkeeps₂ := hacc₂.retains.keeps
  have hpartials {n : Nat} (hn : Done g h₁ (.partials n)) :
      h₂.made start₂ (.partials n) = (h₁.made start₁ (.partials n)).map f :=
    block_partials_map hw hkeeps₁ hkeeps₂ hf.fixed hn.owner (hf.moved hn)
  cases k with
  | partials n => exact hpartials hk
  | derivative n name =>
    induction n using Nat.strongRecOn with
    | ind n ih =>
      refine block_derivative_map hw hkeeps₁ hkeeps₂ hf.fixed hk.owner ?_ (fun m hm => ?_)
        (hf.moved hk)
      · exact hf.answer?_of_made hg hs hacc₁ hacc₂ hdone hk.owner hpartials
      · have hlt : m < n := hw.uses_lt hm
        have hm : m < g.size := Nat.lt_trans hlt hk.owner
        exact derivativeOf_map (fun c => hf.fixed _ (hg.shared_lt c)) hkeeps₁ hkeeps₂ hm
          (hf.answer?_of_made hg hs hacc₁ hacc₂ hdone hm (ih m hlt))

end Follows

/-- The graphs differ in the names of the nodes that were not in `g`, and in nothing else. -/
structure Renaming (g h₁ h₂ : Graph) (f : NodeId → NodeId) : Prop where
  fixed : ∀ n : Nat, n < g.size → f n = n
  bijective : Set.BijOn f (Set.Iio h₁.size) (Set.Iio h₂.size)
  nodes : ∀ n : Nat, n < h₁.size → h₂.nodes[f n]? = h₁.nodes[n]?.map (Node.map f)
  answers :
    ∀ k : Task, k.owner < h₁.size → h₂.answer? (k.map f) = (h₁.answer? k).map (List.map f)

theorem Renaming.derivativeOf (hr : Renaming g h₁ h₂ f) (hg : g.WellFormed)
    (hk₁ : g.Keeps h₁) (hk₂ : g.Keeps h₂) (hn : n < g.size) :
    h₂.derivativeOf name n = f (h₁.derivativeOf name n) := by
  have ha := hr.answers (.derivative n name) (hk₁.lt hn)
  rw [Task.map, hr.fixed n hn] at ha
  exact derivativeOf_map (fun c => hr.fixed _ (hg.shared_lt c)) hk₁ hk₂ hn ha

theorem answer?_map_of_memo (hmemo : h₂.memo (f k.owner) = (h₁.memo k.owner).map f) :
    h₂.answer? (k.map f) = (h₁.answer? k).map (List.map f) := by
  cases k with
  | partials n => exact congrArg Memo.partials? hmemo
  | derivative n name =>
    have hd : (h₂.memo (f n)).derivatives = ((h₁.memo n).map f).derivatives :=
      congrArg Memo.derivatives hmemo
    simp only [Task.map, answer?, hd, Memo.map]
    induction (h₁.memo n).derivatives with
    | nil => rfl
    | cons entry rest ih =>
      obtain ⟨other, d⟩ := entry
      simp only [List.map_cons, List.lookup_cons]
      cases name == other with
      | true => rfl
      | false => exact ih

section Renaming

variable (hg : g.Truthful) (hs : g.Settled) (hacc₁ : Account g h₁ start₁)
  (hacc₂ : Account g h₂ start₂) (hdone : ∀ k, Done g h₁ k ↔ Done g h₂ k)

include hg hs hacc₁ hacc₂ hdone

theorem Follows.bijective (hf : Follows g h₁ start₁ start₂ f) :
    Set.BijOn f (Set.Iio h₁.size) (Set.Iio h₂.size) := by
  have hmade {k : Task} (hk : Done g h₁ k) := hf.made_map hg hs hacc₁ hacc₂ hdone hk
  have hlength {k : Task} (hk : Done g h₁ k) :
      (h₂.made start₂ k).nodes.length = (h₁.made start₁ k).nodes.length := by
    rw [hmade hk, Block.map, List.length_map]
  have hnew {k : Task} {i : Nat} (hk : Done g h₁ k)
      (hi : i < (h₁.made start₁ k).nodes.length) :
      g.size ≤ f (start₁ k + i) ∧ f (start₁ k + i) < h₂.size := by
    rw [hf.moved hk i hi]
    have hi : i < (h₂.made start₂ k).nodes.length := by rw [hlength hk]; exact hi
    have hk := (hdone k).mp hk
    exact ⟨(hacc₂.placed hk hi).1, hacc₂.lt_size hk hi⟩
  refine ⟨fun n hn => ?_, fun m hm n hn heq => ?_, fun n hn => ?_⟩
  · rcases Nat.lt_or_ge n g.size with hold | hge
    · rw [hf.fixed n hold]
      exact hacc₂.retains.keeps.lt hold
    · obtain ⟨k, i, hk, hi, rfl⟩ := hacc₁.covered hge hn
      exact (hnew hk hi).2
  · rcases Nat.lt_or_ge m g.size with hmold | hmge <;>
      rcases Nat.lt_or_ge n g.size with hnold | hnge
    · rwa [hf.fixed m hmold, hf.fixed n hnold] at heq
    · obtain ⟨k, i, hk, hi, rfl⟩ := hacc₁.covered hnge hn
      rw [hf.fixed m hmold] at heq
      exact absurd (heq ▸ hmold) (Nat.not_lt.mpr (hnew hk hi).1)
    · obtain ⟨k, i, hk, hi, rfl⟩ := hacc₁.covered hmge hm
      rw [hf.fixed n hnold] at heq
      exact absurd (heq ▸ hnold) (Nat.not_lt.mpr (hnew hk hi).1)
    · obtain ⟨k, i, hk, hi, rfl⟩ := hacc₁.covered hmge hm
      obtain ⟨l, j, hl, hj, rfl⟩ := hacc₁.covered hnge hn
      rw [hf.moved hk i hi, hf.moved hl j hj] at heq
      obtain rfl : k = l := hacc₂.apart ((hdone k).mp hk) ((hdone l).mp hl) (by rwa [hlength hk])
        (by rwa [hlength hl]) heq
      rw [Nat.add_left_cancel heq]
  · rcases Nat.lt_or_ge n g.size with hold | hge
    · exact ⟨n, hacc₁.retains.keeps.lt hold, hf.fixed n hold⟩
    · obtain ⟨k, i, hk, hi, rfl⟩ := hacc₂.covered hge hn
      have hk := (hdone k).mpr hk
      rw [hlength hk] at hi
      exact ⟨start₁ k + i, hacc₁.lt_size hk hi, hf.moved hk i hi⟩

theorem Follows.renaming (hf : Follows g h₁ start₁ start₂ f) : Renaming g h₁ h₂ f := by
  have hmade {k : Task} (hk : Done g h₁ k) := hf.made_map hg hs hacc₁ hacc₂ hdone hk
  refine ⟨hf.fixed, hf.bijective hg hs hacc₁ hacc₂ hdone, fun n hn => ?_, fun k hk => ?_⟩
  · rcases Nat.lt_or_ge n g.size with hold | hge
    · obtain ⟨node, hnode⟩ := exists_node hold
      rw [hf.fixed n hold, hacc₁.retains.keeps hnode, hacc₂.retains.keeps hnode,
        Option.map_some]
      cases node with
      | leaf l => rfl
      | operation op ns =>
        rw [Node.map, map_eq_self hf.fixed fun m hm => hg.operand_lt_size hnode hm]
    · obtain ⟨k, i, hk, hi, rfl⟩ := hacc₁.covered hge hn
      rw [hf.moved hk i hi, (hacc₁.placed hk hi).2.1]
      have hi : i < (h₂.made start₂ k).nodes.length := by simpa [hmade hk, Block.map] using hi
      rw [(hacc₂.placed ((hdone k).mp hk) hi).2.1, hmade hk, Block.map, List.getElem?_map]
  · rcases Nat.lt_or_ge k.owner g.size with hold | hge
    · have hsame : k.map f = k := by cases k <;> simp_all [Task.map, Task.owner, hf.fixed]
      rw [hsame]
      exact hf.answer?_of_made hg hs hacc₁ hacc₂ hdone hold hmade
    · obtain ⟨l, i, hl, hi, hn⟩ := hacc₁.covered hge hk
      refine answer?_map_of_memo ?_
      rw [hn, hf.moved hl i hi, (hacc₁.placed hl hi).2.2]
      have hi : i < (h₂.made start₂ l).nodes.length := by simpa [hmade hl, Block.map] using hi
      rw [(hacc₂.placed ((hdone l).mp hl) hi).2.2, hmade hl]
      split <;> rfl

end Renaming

/-- Whatever serves the same requests makes the same graph, but for where the new nodes are. -/
theorem Serves.exists_renaming {qs rs : List (NodeId × String)} (hqs : Serves g qs h₁)
    (hrs : Serves g rs h₂) (hg : g.Truthful) (hs : g.Settled)
    (hmem : ∀ q, q ∈ qs ↔ q ∈ rs) : ∃ f, Renaming g h₁ h₂ f := by
  obtain ⟨start₁, hacc₁⟩ := hqs.account hg.toWellFormed hs
  obtain ⟨start₂, hacc₂⟩ := hrs.account hg.toWellFormed hs
  obtain ⟨f, hf⟩ := hacc₁.exists_follows start₂
  exact ⟨f, hf.renaming hg hs hacc₁ hacc₂ (hqs.done_iff hrs hg.toWellFormed hs hmem)⟩

end Graph
end Fluxion

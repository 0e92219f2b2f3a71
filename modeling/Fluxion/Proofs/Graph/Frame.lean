import Fluxion.Proofs.Graph.Acyclic
import Fluxion.Proofs.Graph.Identity

namespace Fluxion.Graph

open Relation

variable {g h : Graph} {n m w base : Nat} {name : String} {k : Task} {ks : List Task}

/-- The second graph has what the first one has, but that the operations at or below a node have a
derivative by a variable, and what it takes to work that out. -/
structure Footprint (g : Graph) (n : NodeId) (name : String) (h : Graph) : Prop where
  nodes : ∀ m < g.size, h.nodes[m]? = g.nodes[m]?
  derivative_iff : ∀ m op ns, g.nodes[m]? = some (.operation op ns) →
    (((h.memo m).derivatives.lookup name).isSome ↔
      ((g.memo m).derivatives.lookup name).isSome ∨ ReflTransGen g.Uses n m)
  derivatives : ∀ m < g.size, ∀ d,
    (g.memo m).derivatives.lookup name = some d → (h.memo m).derivatives.lookup name = some d
  others : ∀ m < g.size, ∀ other, other ≠ name →
    (h.memo m).derivatives.lookup other = (g.memo m).derivatives.lookup other
  partials_iff : ∀ m < g.size, ((h.memo m).partials?.isSome ↔
    (g.memo m).partials?.isSome ∨ ReflTransGen g.Uses n m ∧ g.ByPartials m)
  partials :
    ∀ m < g.size, ∀ ps, (g.memo m).partials? = some ps → (h.memo m).partials? = some ps

theorem answer?_derivative_eq_some {d : NodeId} :
    g.answer? (.derivative m name) = some [d] ↔ (g.memo m).derivatives.lookup name = some d := by
  simp [answer?]

theorem isSome_answer?_derivative :
    (g.answer? (.derivative m name)).isSome ↔ ((g.memo m).derivatives.lookup name).isSome := by
  simp [answer?]

theorem derivative_footprint (hg : g.Truthful) (hs : g.Settled) (hn : n < g.size) (name : String) :
    g.Footprint n name (g.derivative name n).1 := by
  have hretains := (derivative_serves hg hn name).retains hg.toWellFormed
  have hiff {l : Task} (hl : l.owner < g.size) := derivative_isSome_iff hg hs hn name hl
  refine ⟨fun m hm => ?_, fun m op ns hnode => ?_, fun m hm d hd => ?_,
    fun m hm other hother => ?_, fun m hm => ?_, fun m hm ps hps => ?_⟩
  · obtain ⟨node, hnode⟩ := exists_node hm
    rw [hnode, hretains.keeps hnode]
  · rw [← isSome_answer?_derivative, ← isSome_answer?_derivative,
      hiff (l := .derivative m name) (lt_size hnode)]
    refine or_congr_right ⟨?_, fun hb => ⟨m, hb, ⟨op, ns, hnode⟩, .inl rfl⟩⟩
    rintro ⟨m', hb, hk⟩
    obtain rfl : m = m' := hk.owner
    exact hb
  · exact answer?_derivative_eq_some.mp (hretains.answers (answer?_derivative_eq_some.mpr hd))
  · cases hd : (g.memo m).derivatives.lookup other with
    | some d =>
      exact answer?_derivative_eq_some.mp (hretains.answers (answer?_derivative_eq_some.mpr hd))
    | none =>
      rw [← Option.not_isSome_iff_eq_none, ← isSome_answer?_derivative,
        hiff (l := .derivative m other) hm]
      rintro (hbefore | ⟨m', -, -, heq | ⟨heq, -⟩⟩)
      · rw [isSome_answer?_derivative, hd] at hbefore
        cases hbefore
      · exact hother (Task.derivative.inj heq).2
      · cases heq
  · refine (hiff (l := .partials m) hm).trans (or_congr_right ⟨?_, ?_⟩)
    · rintro ⟨m', hb, -, heq | ⟨heq, hby⟩⟩
      · cases heq
      · obtain rfl := Task.partials.inj heq
        exact ⟨hb, hby⟩
    · rintro ⟨hb, hby⟩
      obtain ⟨op, ns, hnode, -⟩ := id hby
      exact ⟨m, hb, ⟨op, ns, hnode⟩, .inr ⟨rfl, hby⟩⟩
  · exact hretains.answers (k := .partials m) hps

/-- What a task is made from was led to before. -/
theorem Source.led (hw : g.Source k w) : (∃ c : Shared, w = c.id) ∨ ∃ n, g.Links n w := by
  cases hw with
  | shared c => exact .inl ⟨c, rfl⟩
  | operand hm => exact .inr ⟨_, .inl hm⟩
  | ofPartials ha hp => exact .inr ⟨_, .inr (holds_iff.mpr ⟨_, _, rfl, ha, hp⟩)⟩
  | @ofOperand n name m _ =>
    rcases g.derivativeOf_cases name m with ⟨c, hc⟩ | ha
    · exact .inl ⟨c, hc⟩
    · exact .inr ⟨_, .inr (holds_iff.mpr ⟨_, _, rfl, ha, List.mem_singleton_self _⟩)⟩

/-- A node of a block that is not the sum at its start. -/
def Block.Past (b : Block) (first w : Nat) : Prop :=
  ∃ j, w = first + j ∧ j < b.nodes.length ∧ (b.memo.partials?.isSome → j ≠ 0)

theorem Block.past_of_rank_lt {b : Block} {first i j : Nat} (hi : i < b.nodes.length)
    (hj : j < b.nodes.length) (hrank : b.rank j < b.rank i) : b.Past first (first + j) := by
  refine ⟨j, rfl, hj, ?_⟩
  rintro hsome rfl
  rw [Block.rank, Block.rank, if_pos ⟨rfl, hsome⟩] at hrank
  split at hrank
  · exact Nat.lt_irrefl _ hrank
  · omega

/-- A derivative is not the sum it was worked out with. -/
theorem Plan.answer_cases {b : Nat → Block} (hb : Plan g k b)
    (hw : w ∈ (g.block g.size k).answer) : g.Source k w ∨ (g.block g.size k).Past g.size w := by
  refine ((g.block_closed g.size k).answer hw).imp id ?_
  rintro ⟨j, rfl, hj⟩
  refine ⟨j, rfl, hj, fun hsome hzero => ?_⟩
  subst hzero
  rw [hb.block_eq] at hw hsome
  cases hb with
  | partials hn => cases hsome
  | zero hn => cases hsome
  | chain hn hne hq hps hd => cases hsome
  | @quotient n op ns inner divisor name hn hne hq hd =>
    obtain ⟨d, q, -, hanswer, hle, hlt, -⟩ :=
      quotientBlock_answer hq hne (mt List.map_eq_nil_iff.mp hne) g.size name
    rw [hanswer, List.mem_singleton] at hw
    omega

/-- What a node leads to after a task was led to before, or is new and no sum to work with. -/
theorem Adds.links_cases (ha : g.Adds k h) (hk : g.Supplies k) (hl : h.Links n w) :
    (∃ c : Shared, w = c.id) ∨ (∃ m, g.Links m w) ∨ (g.block g.size k).Past g.size w := by
  obtain ⟨b, hb⟩ := hk
  have hsource (hw : g.Source k w) :
      (∃ c : Shared, w = c.id) ∨ (∃ m, g.Links m w) ∨ (g.block g.size k).Past g.size w :=
    hw.led.imp id .inl
  have hclosed := g.block_closed g.size k
  rcases Nat.lt_or_ge n g.size with hlt | hge
  · rcases hl with hm | hm
    · rw [ha.keeps.operands hlt] at hm
      exact .inr (.inl ⟨n, .inl hm⟩)
    · obtain ⟨l, answer, rfl, hl, hm⟩ := holds_iff.mp hm
      rw [ha.answers l hlt] at hl
      split at hl
      · obtain rfl := Option.some.inj hl
        exact (hb.answer_cases hm).elim hsource fun hpast => .inr (.inr hpast)
      · exact .inr (.inl ⟨_, .inr (holds_iff.mpr ⟨l, answer, rfl, hl, hm⟩)⟩)
  · obtain ⟨i, rfl⟩ := Nat.exists_eq_add_of_le hge
    rcases hl with hm | hm
    · obtain ⟨op, ns, hn, hm⟩ := mem_operands.mp hm
      rw [ha.nodes, Graph.size, Array.getElem?_append_right (Nat.le_add_right _ _),
        Nat.add_sub_cancel_left, List.getElem?_toArray] at hn
      rcases hclosed.operands hn hm with hm | ⟨j, rfl, hj, hrank⟩
      · exact hsource hm
      · exact .inr (.inr (Block.past_of_rank_lt (List.getElem?_eq_some_iff.mp hn).1 hj hrank))
    · rw [ha.made] at hm
      split at hm
      · rcases hclosed.memo hm with hm | ⟨j, rfl, hj, hrank⟩
        · exact hsource hm
        · exact .inr (.inr (Block.past_of_rank_lt (Nat.zero_lt_of_lt hj) hj hrank))
      · exact absurd hm (not_holds_empty w)

/-- Of the nodes from `base` on, those that remember partial derivatives have a rule for
them, and are led to by no node. -/
structure Detached (g : Graph) (base : Nat) : Prop where
  lt : ∀ {n m : Nat}, g.Links n m → m < g.size
  sums : ∀ {m : Nat}, base ≤ m → (g.memo m).partials?.isSome →
    g.ByPartials m ∧ ∀ n, ¬ g.Links n m

theorem detached_size (hg : g.Truthful) (hs : g.Settled) : g.Detached g.size where
  lt hl := (links_lt hg hs hl).2
  sums {m} hm hsome := by
    rw [memo_of_size_le hg.toWellFormed hm] at hsome
    cases hsome

theorem Detached.adds (hd : g.Detached base) (hw : g.WellFormed)
    (hshared : ∀ c : Shared, c.id < base) (hk : g.Supplies k) (hlt : k.owner < base)
    (ha : g.Adds k h) : h.Detached base where
  lt {n m} hl := by
    have hsize := ha.size
    rcases ha.links_cases hk hl with ⟨c, rfl⟩ | ⟨x, hl⟩ | ⟨j, rfl, hj, -⟩
    · exact ha.keeps.lt (hw.shared_lt c)
    · exact ha.keeps.lt (hd.lt hl)
    · omega
  sums {m} hm hsome := by
    have hshared' (c : Shared) : m ≠ c.id := Nat.ne_of_gt (Nat.lt_of_lt_of_le (hshared c) hm)
    obtain ⟨ps, hps⟩ := Option.isSome_iff_exists.mp hsome
    have hps : h.answer? (.partials m) = some ps := hps
    rcases ha.answer?_cases hps with hold | ⟨rfl, -⟩ | hfirst
    · have hmlt : m < g.size := lt_of_answer? hw hold
      obtain ⟨hby, hunled⟩ := hd.sums hm (Option.isSome_of_eq_some hold)
      refine ⟨ha.keeps.byPartials hby, fun n hl => ?_⟩
      rcases ha.links_cases hk hl with ⟨c, rfl⟩ | ⟨x, hl⟩ | ⟨j, rfl, -, -⟩
      · exact hshared' c rfl
      · exact hunled x hl
      · exact absurd hmlt (Nat.not_lt.mpr (Nat.le_add_right _ _))
    · exact absurd hlt (Nat.not_lt.mpr hm)
    · obtain ⟨b, hb⟩ := id hk
      obtain ⟨_, _, ns, inner, _, _, -, -, hne, hq, -, hsum, -⟩ :=
        hb.sum_of_answer ha hfirst (Option.isSome_of_eq_some hps)
      obtain rfl : m = g.size := hfirst
      refine ⟨⟨.any inner, ns, hsum, hne, Primitive.quotient?_inner hq ns Shared.id⟩,
        fun n hl => ?_⟩
      rcases ha.links_cases hk hl with ⟨c, hc⟩ | ⟨x, hl⟩ | ⟨j, hj, -, hne⟩
      · exact hshared' c hc
      · exact Nat.lt_irrefl _ (hd.lt hl)
      · have hmemo : h.memo g.size = (g.block g.size k).memo := by simpa using ha.made 0
        rw [hmemo] at hsome
        exact hne hsome (by omega)

theorem Detached.performs (hd : g.Detached base) (hp : Performs g ks h) (hw : g.WellFormed)
    (hshared : ∀ c : Shared, c.id < base) (hle : base ≤ g.size)
    (hlt : ∀ k ∈ ks, k.owner < base) : h.Detached base := by
  induction hp with
  | nil => exact hd
  | cons _ hk ha hh _ ih =>
    obtain ⟨hfirst, hrest⟩ := List.forall_mem_cons.mp hlt
    exact ih (hd.adds hw hshared hk hfirst ha) hh (Nat.le_trans hle ha.keeps.size_le) hrest

/-- Of what is new after a derivative, nothing that remembers partial derivatives is led to. -/
theorem derivative_detached (hg : g.Truthful) (hs : g.Settled) (hn : n < g.size) (name : String) :
    (g.derivative name n).1.Detached g.size := by
  have hw := hg.toWellFormed
  obtain ⟨ks, hks, hneeds⟩ := (derivative_serves hg hn name).tasks hw
  refine (detached_size hg hs).performs hks hw hg.shared_lt (Nat.le_refl _) fun k hk => ?_
  obtain ⟨-, howner, -⟩ := hneeds k hk
  exact howner

/-- A derivative of an operation is led to by it. -/
theorem links_derivative {op : Operator} {ns : List NodeId} {d : NodeId}
    (hn : g.nodes[n]? = some (.operation op ns)) (hd : g.derivative? name n = some d) :
    g.Links n d := by
  rw [derivative?_operation hn] at hd
  exact .inr (.inr ⟨name, hd⟩)

end Fluxion.Graph

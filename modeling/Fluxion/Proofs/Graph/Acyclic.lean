import Mathlib.Data.Prod.Lex
import Fluxion.Proofs.Graph.Links

namespace Fluxion.Graph

open Relation

variable {g h : Graph} {n m x z w : Nat} {name : String} {k l : Task} {start : Task → Nat}
  {bound i : Nat}

def Acyclic (g : Graph) : Prop := ∀ n, ¬ TransGen g.Links n n

/-- The tasks of operands come before those of the node, and partial derivatives before
derivatives. -/
def Task.height : Task → Nat
  | partials n => 2 * n
  | derivative n _ => 2 * n + 1

/-- What a node comes to lead to: shared constants, what it was leading to, and blocks of
tasks whose owner it was leading to. -/
inductive Region (g h : Graph) (start : Task → Nat) (n : NodeId) (bound : Nat) : NodeId → Prop
  | shared (c : Shared) : Region g h start n bound c.id
  | old {m : Nat} : m < g.size → TransGen g.Links n m → Region g h start n bound m
  | new {l : Task} {i : Nat} : Done g h l → i < (h.made start l).nodes.length →
      ReflTransGen g.Links n l.owner → l.height < bound → Region g h start n bound (start l + i)

theorem Region.mono {bound' : Nat} (hm : Region g h start n bound m) (hle : bound ≤ bound') :
    Region g h start n bound' m := by
  cases hm with
  | shared c => exact .shared c
  | old hlt hp => exact .old hlt hp
  | new hl hi hp hb => exact .new hl hi hp (Nat.lt_of_lt_of_le hb hle)

theorem Region.head (hm : Region g h start n bound m) (hp : ReflTransGen g.Links x n) :
    Region g h start x bound m := by
  cases hm with
  | shared c => exact .shared c
  | old hlt hq => exact .old hlt (.trans_right hp hq)
  | new hl hi hq hb => exact .new hl hi (hp.trans hq) hb

/-- A derivative that is read is a shared constant or an answer. -/
theorem derivativeOf_cases (g : Graph) (name : String) (n : NodeId) :
    (∃ c : Shared, g.derivativeOf name n = c.id) ∨
      g.answer? (.derivative n name) = some [g.derivativeOf name n] := by
  unfold derivativeOf derivative?
  split
  · exact .inl ⟨_, rfl⟩
  · cases hd : (g.memo n).derivatives.lookup name with
    | none => exact .inl ⟨.zero, rfl⟩
    | some d => exact .inr (by simp [answer?, hd])

theorem Account.region_of_source (hacc : Account g h start) (hg : g.WellFormed)
    (hk : k.owner < g.size) (hw : h.Source k w)
    (hanswer : ∀ {l : Task} {answer : List NodeId}, l.height < k.height → l.owner < g.size →
      h.answer? l = some answer → w ∈ answer → Region g h start l.owner (l.height + 1) w) :
    Region g h start k.owner k.height w := by
  cases hw with
  | shared c => exact .shared c
  | operand hm =>
    rw [hacc.retains.keeps.operands hk] at hm
    exact .old (Nat.lt_trans (hg.uses_lt hm) hk) (.single (.inl hm))
  | @ofPartials n name ps p ha hp => exact hanswer (l := .partials n) (Nat.lt_succ_self _) hk ha hp
  | @ofOperand n name m hm =>
    have hn : n < g.size := hk
    rw [hacc.retains.keeps.operands hn] at hm
    have hlt : m < n := hg.uses_lt hm
    have hheight : (Task.derivative m name).height < (Task.derivative n name).height := by
      simp only [Task.height]
      omega
    rcases h.derivativeOf_cases name m with ⟨c, hc⟩ | ha
    · rw [hc]
      exact .shared c
    · have hr := hanswer (l := .derivative m name) hheight (Nat.lt_trans hlt hn) ha
        (List.mem_singleton_self _)
      exact (hr.mono hheight).head (.single (.inl hm))

theorem Account.region_of_answer (hacc : Account g h start) (hg : g.Truthful) (hs : g.Settled)
    {answer : List NodeId} (hk : k.owner < g.size) (ha : h.answer? k = some answer)
    (hw : w ∈ answer) : Region g h start k.owner (k.height + 1) w := by
  -- What a task is made from is answered by lesser ones, so the induction is on the height.
  induction hheight : k.height using Nat.strongRecOn generalizing k answer w with
  | ind height ih =>
    subst hheight
    cases hbefore : g.answer? k with
    | some before =>
      obtain rfl : before = answer := Option.some.inj ((hacc.retains.answers hbefore).symm.trans ha)
      exact .old (hg.answer?_lt hs hbefore w hw)
        (.single (.inr (holds_iff.mpr ⟨k, before, rfl, hbefore, hw⟩)))
    | none =>
      have hdone : Done g h k := ⟨hk, hbefore, Option.isSome_of_eq_some ha⟩
      obtain rfl : (h.made start k).answer = answer :=
        Option.some.inj ((hacc.answered hdone).symm.trans ha)
      rcases (h.block_closed (start k) k).answer hw with hsource | ⟨j, rfl, hj⟩
      · refine (hacc.region_of_source hg.toWellFormed hk hsource fun hlt hl ha hw => ?_).mono
          (Nat.le_succ _)
        exact ih _ hlt hl ha hw rfl
      · exact .new hdone hj .refl (Nat.lt_succ_self _)

theorem Plan.operation {b : Nat → Block} (hb : Plan g k b) :
    ∃ op ns, g.nodes[k.owner]? = some (.operation op ns) := by
  cases hb with
  | partials hn => exact ⟨_, _, hn⟩
  | zero hn => exact ⟨_, _, hn⟩
  | chain hn _ _ _ _ => exact ⟨_, _, hn⟩
  | quotient hn _ _ _ => exact ⟨_, _, hn⟩

theorem not_links_shared (hw : g.WellFormed) (hs : g.Settled) (c : Shared) (m : Nat) :
    ¬ g.Links c.id m := by
  have hleaf := hw.shared c
  rintro (hm | hm)
  · obtain ⟨op, ns, hn, -⟩ := mem_operands.mp hm
    rw [hleaf] at hn
    cases hn
  · obtain ⟨k, answer, hk, ha, -⟩ := holds_iff.mp hm
    obtain ⟨b, hb⟩ := hs k (Option.isSome_of_eq_some ha)
    obtain ⟨op, ns, hn⟩ := hb.operation
    rw [hk, hleaf] at hn
    cases hn

theorem links_lt (hg : g.Truthful) (hs : g.Settled) (hl : g.Links n m) :
    n < g.size ∧ m < g.size := by
  rcases hl with hm | hm
  · obtain ⟨op, ns, hn, hm⟩ := mem_operands.mp hm
    exact ⟨lt_size hn, hg.operand_lt_size hn hm⟩
  · obtain ⟨k, answer, rfl, ha, hm⟩ := holds_iff.mp hm
    obtain ⟨b, hb⟩ := hs k (Option.isSome_of_eq_some ha)
    exact ⟨owner_lt_of_plan hb, hg.answer?_lt hs ha m hm⟩

/-- How far a new node is from older ones: its task, and its place in the block. Age does not tell,
for what is remembered of a node is newer than the node. -/
inductive Weighs (g h : Graph) (start : Task → Nat) : NodeId → ℕ ×ₗ ℕ → Prop
  | intro {k : Task} {i : Nat} : Done g h k → i < (h.made start k).nodes.length →
      Weighs g h start (start k + i) (toLex (k.height, (h.made start k).rank i))

theorem Weighs.unique {a b : ℕ ×ₗ ℕ} (ha : Weighs g h start n a) (hacc : Account g h start)
    (hb : Weighs g h start n b) : a = b := by
  generalize hm : n = m at hb
  obtain ⟨hk, hi⟩ := ha
  obtain ⟨hl, hj⟩ := hb
  obtain rfl := hacc.apart hk hl hi hj hm
  rw [Nat.add_left_cancel hm]

section Account

variable (hg : g.Truthful) (hs : g.Settled) (hh : h.Truthful) (hsh : h.Settled)
  (hacc : Account g h start)

include hg hs hacc

theorem Account.region_of_link (hz : z < g.size) (hl : h.Links z w) :
    ∃ bound, Region g h start z bound w := by
  rcases hl with hm | hm
  · rw [hacc.retains.keeps.operands hz] at hm
    exact ⟨0, .old (Nat.lt_trans (hg.uses_lt hm) hz) (.single (.inl hm))⟩
  · obtain ⟨k, answer, rfl, ha, hw⟩ := holds_iff.mp hm
    exact ⟨_, hacc.region_of_answer hg hs hz ha hw⟩

theorem Account.block_link (hk : Done g h k) (hi : i < (h.made start k).nodes.length)
    (hl : h.Links (start k + i) w) : Region g h start k.owner k.height w ∨
      ∃ j, w = start k + j ∧ j < (h.made start k).nodes.length ∧
        (h.made start k).rank j < (h.made start k).rank i := by
  obtain ⟨-, hnode, hmemo⟩ := hacc.placed hk hi
  have hclosed : (h.made start k).Closed (h.Source k) (start k) := h.block_closed (start k) k
  have hsource : h.Source k w ∨ ∃ j, w = start k + j ∧ j < (h.made start k).nodes.length ∧
      (h.made start k).rank j < (h.made start k).rank i := by
    rcases hl with hm | hm
    · obtain ⟨op, ns, hn, hm⟩ := mem_operands.mp hm
      rw [hnode] at hn
      exact hclosed.operands hn hm
    · rw [hmemo] at hm
      split at hm
      · subst i
        exact hclosed.memo hm
      · exact absurd hm (not_holds_empty w)
  exact hsource.imp (fun hw => hacc.region_of_source hg.toWellFormed hk.owner hw fun _ hl ha hw =>
    hacc.region_of_answer hg hs hl ha hw) id

/-- From a new node one comes to older ones or to a lighter one. -/
theorem Account.lighter_of_link {a : ℕ ×ₗ ℕ} (hn : Weighs g h start n a) (hl : h.Links n w) :
    w < g.size ∨ ∃ b < a, Weighs g h start w b := by
  obtain ⟨hk, hi⟩ := hn
  rcases hacc.block_link hg hs hk hi hl with hr | ⟨j, rfl, hj, hrank⟩
  · cases hr with
    | shared c => exact .inl (hg.shared_lt c)
    | old hlt _ => exact .inl hlt
    | new hdone hj _ hb =>
      exact .inr ⟨_, Prod.Lex.toLex_lt_toLex.mpr (.inl hb), .intro hdone hj⟩
  · refine .inr ⟨_, ?_, .intro hk hj⟩
    exact Prod.Lex.toLex_lt_toLex.mpr (.inr ⟨rfl, hrank⟩)

theorem Account.lighter_of_path {a : ℕ ×ₗ ℕ} (hn : Weighs g h start n a)
    (hp : TransGen h.Links n w) :
    (∃ x < g.size, ReflTransGen h.Links n x ∧ ReflTransGen h.Links x w) ∨
      ∃ b < a, Weighs g h start w b := by
  induction hp with
  | single hl =>
    exact (hacc.lighter_of_link hg hs hn hl).imp (fun hlt => ⟨_, hlt, .single hl, .refl⟩) id
  | tail hp hl ih =>
    rcases ih with ⟨x, hx, hnx, hxm⟩ | ⟨b, hb, hm⟩
    · exact .inl ⟨x, hx, hnx, hxm.tail hl⟩
    · rcases hacc.lighter_of_link hg hs hm hl with hlt | ⟨c, hc, hw⟩
      · exact .inl ⟨_, hlt, (hp.tail hl).to_reflTransGen, .refl⟩
      · exact .inr ⟨c, lt_trans hc hb, hw⟩

include hh hsh

theorem Account.region_of_path (hx : x < g.size) (hp : TransGen h.Links x w) :
    ∃ bound, Region g h start x bound w := by
  induction hp with
  | single hl => exact hacc.region_of_link hg hs hx hl
  | tail _ hl ih =>
    obtain ⟨bound, hr⟩ := ih
    cases hr with
    | shared c => exact absurd hl (not_links_shared hh.toWellFormed hsh c _)
    | old hlt hp =>
      obtain ⟨bound', hr⟩ := hacc.region_of_link hg hs hlt hl
      exact ⟨bound', hr.head hp.to_reflTransGen⟩
    | new hk hi hp hb =>
      rcases hacc.block_link hg hs hk hi hl with hr | ⟨j, rfl, hj, -⟩
      · exact ⟨_, hr.head hp⟩
      · exact ⟨_, .new hk hj hp hb⟩

/-- Among the nodes that were there, none but the shared constants is
led to from more nodes than before. -/
theorem Account.path_of_path (hx : x < g.size) (hm : m < g.size)
    (hshared : ∀ c : Shared, m ≠ c.id) (hp : TransGen h.Links x m) : TransGen g.Links x m := by
  obtain ⟨bound, hr⟩ := hacc.region_of_path hg hs hh hsh hx hp
  cases hr with
  | shared c => exact absurd rfl (hshared c)
  | old _ hp => exact hp
  | new hk hi _ _ => exact absurd hm (Nat.not_lt.mpr (hacc.placed hk hi).1)

/-- A node that was there is not on a circle now if it was on none before. -/
theorem Account.not_path_old (hacyclic : g.Acyclic) (hx : x < g.size) :
    ¬ TransGen h.Links x x := by
  intro hp
  obtain ⟨bound, hr⟩ := hacc.region_of_path hg hs hh hsh hx hp
  cases hr with
  | shared c =>
    obtain ⟨m, hl, -⟩ := TransGen.head'_iff.mp hp
    exact not_links_shared hh.toWellFormed hsh c m hl
  | old _ hp => exact hacyclic x hp
  | new hk hi _ _ => exact absurd hx (Nat.not_lt.mpr (hacc.placed hk hi).1)

theorem Account.acyclic (hacyclic : g.Acyclic) : h.Acyclic := by
  intro n hp
  have hold {x : Nat} (hx : x < g.size) := hacc.not_path_old hg hs hh hsh hacyclic hx
  rcases Nat.lt_or_ge n g.size with hlt | hge
  · exact hold hlt hp
  · obtain ⟨m, hl, -⟩ := TransGen.head'_iff.mp hp
    obtain ⟨k, i, hk, hi, rfl⟩ := hacc.covered hge (links_lt hh hsh hl).1
    -- A circle of new nodes only would have to get lighter all the way round.
    rcases hacc.lighter_of_path hg hs (.intro hk hi) hp with ⟨x, hx, hnx, hxn⟩ | ⟨b, hb, hn⟩
    · exact hold hx (.trans_right hxn (hp.trans_left hnx))
    · rw [hn.unique hacc (.intro hk hi)] at hb
      exact lt_irrefl _ hb

end Account

theorem Acyclic.add {node : Node} (hacyclic : g.Acyclic) (hg : g.Truthful) (hs : g.Settled)
    (hb : node.Below g.size) : (g.add node).1.Acyclic := by
  -- The new node is led to by none, and leads to older ones only.
  have hlink {n m : Nat} (hl : (g.add node).1.Links n m) :
      m < g.size ∧ (n < g.size → g.Links n m) := by
    rcases Nat.lt_or_ge n g.size with hlt | hge
    · have hl : g.Links n m := by rwa [Links, (keeps_add g node).operands hlt, memo_add] at hl
      exact ⟨(links_lt hg hs hl).2, fun _ => hl⟩
    · refine ⟨?_, fun hlt => absurd hlt (Nat.not_lt.mpr hge)⟩
      rcases hl with hm | hm
      · obtain ⟨op, ns, hn, hmem⟩ := mem_operands.mp hm
        have hlt := lt_size hn
        rw [size_add] at hlt
        obtain rfl : n = g.size := by omega
        obtain rfl : node = .operation op ns := by simpa using hn
        exact hb m hmem
      · rw [memo_add, memo_of_size_le hg.toWellFormed hge] at hm
        exact absurd hm (not_holds_empty m)
  have hpath {n m : Nat} (hp : TransGen (g.add node).1.Links n m) :
      m < g.size ∧ (n < g.size → TransGen g.Links n m) := by
    induction hp with
    | single hl => exact ⟨(hlink hl).1, fun hn => .single ((hlink hl).2 hn)⟩
    | tail _ hl ih => exact ⟨(hlink hl).1, fun hn => (ih.2 hn).tail ((hlink hl).2 ih.1)⟩
  exact fun n hp => hacyclic n ((hpath hp).2 (hpath hp).1)

theorem Acyclic.grown (hacyclic : g.Acyclic) (hg : g.Truthful) (hs : g.Settled) (hgh : g.Grown h) :
    h.Acyclic := by
  induction hgh with
  | refl => exact hacyclic
  | add hgh hb ih => exact ih.add (hg.grown hgh) (hs.grown hg.toWellFormed hgh) hb

theorem Acyclic.evolves (hacyclic : g.Acyclic) (hg : g.Truthful) (hs : g.Settled)
    (hgh : g.Evolves h) : h.Acyclic := by
  have hh := (hgh.advances hg).truthful
  have hsh := hgh.settled hg hs
  cases hgh with
  | grown hgh => exact hacyclic.grown hg hs hgh
  | asked hlt =>
    obtain ⟨start, hacc⟩ := (ask_serves hg hlt).account hg.toWellFormed hs
    exact hacc.acyclic hg hs hh hsh hacyclic

theorem initial_acyclic : initial.Acyclic := by
  intro n hp
  obtain ⟨m, hl, -⟩ := TransGen.head'_iff.mp hp
  rcases hl with hm | hm
  · obtain ⟨op, ns, hn, -⟩ := mem_operands.mp hm
    exact absurd (Array.mem_of_getElem? hn) (by simp [initial])
  · rw [memo_initial] at hm
    exact not_holds_empty m hm

end Fluxion.Graph

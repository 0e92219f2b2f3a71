import Mathlib.Logic.Relation
import Fluxion.Proofs.Graph.Plans

namespace Fluxion.Graph

open Relation

variable {g h i : Graph} {n m root : Nat} {name : String} {op : Operator} {ns ps : List NodeId}
  {k l : Task} {ks : List Task} {b : Nat → Block} {d : NodeId}
  {requests : List (NodeId × String)}

/-- For every answer, the graph holds what the task builds on. -/
def Settled (g : Graph) : Prop := ∀ k, (g.answer? k).isSome → g.Supplies k

theorem initial_settled : initial.Settled := by
  intro k hk
  cases k <;> simp [answer?, memo_initial, Memo.empty] at hk

theorem Grown.answer? (hgh : g.Grown h) (k : Task) : h.answer? k = g.answer? k := by
  cases k <;> simp only [Graph.answer?, hgh.memo]

theorem Grown.retains (hgh : g.Grown h) : g.Retains h :=
  ⟨hgh.keeps, fun {k _} ha => (hgh.answer? k).trans ha⟩

theorem Settled.grown (hg : g.Settled) (hw : g.WellFormed) (hgh : g.Grown h) : h.Settled := by
  intro k hk
  rw [hgh.answer?] at hk
  obtain ⟨b, hb⟩ := hg k hk
  exact ⟨b, hb.retains hw hgh.retains⟩

theorem owner_lt_of_plan (hb : Plan g k b) : k.owner < g.size := by
  cases hb with
  | partials hn => exact lt_size hn
  | zero hn => exact lt_size hn
  | chain hn _ _ _ _ => exact lt_size hn
  | quotient hn _ _ _ => exact lt_size hn

theorem Truthful.answer?_lt (hg : g.Truthful) (hs : g.Settled) {answer : List NodeId}
    (ha : g.answer? k = some answer) : ∀ n : Nat, n ∈ answer → n < g.size := by
  obtain ⟨b, hb⟩ := hs k (Option.isSome_of_eq_some ha)
  have hk := owner_lt_of_plan hb
  cases k with
  | partials n =>
    cases hb with
    | partials hn => exact (hg.partials hn ha).1
  | derivative n name =>
    obtain ⟨d, hd, rfl⟩ := Option.map_eq_some_iff.mp ha
    obtain ⟨before, after, he, -⟩ := List.lookup_eq_some_iff.mp hd
    have hmem : (name, d) ∈ (g.memo n).derivatives := by simp [he]
    exact List.forall_mem_singleton.mpr (hg.derivatives hk hmem).1

/-- An answer after a task is an old one, that of the task, or one for the first node that was
added. -/
theorem Adds.answer?_cases (ha : g.Adds k h) {answer : List NodeId}
    (hl : h.answer? l = some answer) :
    g.answer? l = some answer ∨ l = k ∧ (g.block g.size k).answer = answer ∨
      l.owner = g.size := by
  rcases Nat.lt_or_ge l.owner g.size with hlt | hge
  · rw [ha.answers l hlt] at hl
    split at hl
    · rename_i heq
      exact .inr (.inl ⟨heq, Option.some.inj hl⟩)
    · exact .inl hl
  · rcases Nat.eq_or_lt_of_le hge with heq | hgt
    · exact .inr (.inr heq.symm)
    · obtain ⟨j, hj⟩ := Nat.exists_eq_add_of_lt hgt
      have hmemo : h.memo l.owner = .empty := by
        rw [hj, Nat.add_assoc, ha.made, if_neg (by simp)]
      cases l <;> simp_all [answer?, Memo.empty, Task.owner]

/-- If the first node that was added has an answer, it is the sum under a root or a logarithm. -/
theorem Plan.sum_of_answer (hb : Plan g k b) (ha : g.Adds k h) (hl : l.owner = g.size)
    (hanswer : (h.answer? l).isSome) : ∃ n op ns inner divisor name, k = .derivative n name ∧
      g.nodes[n]? = some (.operation op ns) ∧ ns ≠ [] ∧
      op.primitive.quotient? Shared.id ns = some (inner, divisor) ∧
      (∀ m ∈ ns, (g.derivative? name m).isSome) ∧
      h.nodes[g.size]? = some (.operation (.any inner) ns) ∧
      h.memo g.size =
        (quotientBlock g.size name inner divisor ns (ns.map (g.derivativeOf name))).memo := by
  have hmemo : h.memo g.size = (g.block g.size k).memo := by simpa using ha.made 0
  have hfirst : h.nodes[g.size]? = (g.block g.size k).nodes[0]? := by
    simp [ha.nodes, Graph.size, Array.getElem?_append]
  rw [hb.block_eq] at hmemo hfirst
  have hnonempty : h.memo g.size ≠ .empty := by
    intro he
    rw [← hl] at he
    cases l <;> simp_all [answer?, Memo.empty, Task.owner]
  cases hb with
  | partials hn => exact absurd hmemo hnonempty
  | zero hn => exact absurd hmemo hnonempty
  | chain hn hne hq hps hd => exact absurd hmemo hnonempty
  | @quotient n op ns inner divisor name hn hne hq hd =>
    exact ⟨n, op, ns, inner, divisor, name, rfl, hn, hne, hq, hd, hfirst, hmemo⟩

/-- What the first node of a block remembers is right as well. -/
theorem Plan.settles (hb : Plan g k b) (hw : g.WellFormed) (ha : g.Adds k h) (hgh : g.Retains h)
    (hl : l.owner = g.size) (hanswer : (h.answer? l).isSome) : h.Supplies l := by
  obtain ⟨_, _, ns, inner, divisor, name, -, hn, hne, hq, hd, hsum, hmemo⟩ :=
    hb.sum_of_answer ha hl hanswer
  have hknown (m : Nat) (hm : m ∈ ns) := (hgh.known (hw.operand_lt_size hn hm) (hd m hm)).1
  cases l with
  | partials m =>
    obtain rfl : m = g.size := hl
    exact ⟨_, .partials hsum⟩
  | derivative m other =>
    obtain rfl : m = g.size := hl
    have hps : h.answer? (.partials g.size) = (quotientBlock g.size name inner divisor ns
        (ns.map (g.derivativeOf name))).memo.partials? := by rw [answer?, hmemo]
    obtain rfl : other = name := by
      by_contra hother
      simp [answer?, hmemo, quotientBlock, List.lookup_cons, beq_false_of_ne hother] at hanswer
    exact ⟨_, .chain hsum hne (Primitive.quotient?_inner hq _ _) hps hknown⟩

theorem Settled.adds (hg : g.Settled) (hw : g.WellFormed) (hk : g.Supplies k)
    (hnone : g.answer? k = none) (ha : g.Adds k h) : h.Settled := by
  intro l hl
  have hgh := ha.retains hw hnone
  obtain ⟨b, hb⟩ := hk
  obtain ⟨answer, hanswer⟩ := Option.isSome_iff_exists.mp hl
  rcases ha.answer?_cases hanswer with hold | ⟨rfl, -⟩ | hfirst
  · obtain ⟨c, hc⟩ := hg l (Option.isSome_of_eq_some hold)
    exact ⟨c, hc.retains hw hgh⟩
  · exact ⟨b, hb.retains hw hgh⟩
  · exact hb.settles hw ha hgh hfirst hl

theorem Performs.retains (hp : Performs g ks h) (hg : g.WellFormed) : g.Retains h := by
  induction hp with
  | nil => exact .refl _
  | cons hnone _ ha hw _ ih => exact (ha.retains hg hnone).trans (ih hw)

theorem Performs.settled (hp : Performs g ks h) (hw : g.WellFormed) (hg : g.Settled) :
    h.Settled := by
  induction hp with
  | nil => exact hg
  | cons hnone hk ha hh _ ih => exact ih hh (hg.adds hw hk hnone ha)

/-- No task is answered but those that were performed. -/
theorem Performs.isSome_iff (hp : Performs g ks h) (hl : l.owner < g.size) :
    (h.answer? l).isSome ↔ (g.answer? l).isSome ∨ l ∈ ks := by
  induction hp with
  | nil => simp
  | @cons g h i k ks hnone _ ha _ _ ih =>
    rw [ih (ha.keeps.lt hl), ha.answers l hl]
    by_cases hlk : l = k
    · simp [hlk]
    · simp [hlk]

def Uses (g : Graph) (n m : NodeId) : Prop := m ∈ g.operands n

theorem WellFormed.uses_lt (hg : g.WellFormed) (hu : g.Uses n m) : m < n := by
  obtain ⟨op, ns, hn, hm⟩ := mem_operands.mp hu
  exact hg.operand_lt hn hm

theorem WellFormed.below_le (hg : g.WellFormed) (hb : ReflTransGen g.Uses n m) : m ≤ n := by
  induction hb with
  | refl => exact Nat.le_refl n
  | tail _ hu ih => exact Nat.le_trans (Nat.le_of_lt (hg.uses_lt hu)) ih

theorem Keeps.uses (hk : g.Keeps h) (hn : n < g.size) : h.Uses n m ↔ g.Uses n m := by
  rw [Uses, Uses, hk.operands hn]

theorem Keeps.below (hk : g.Keeps h) (hg : g.WellFormed) (hn : n < g.size) :
    ReflTransGen h.Uses n m ↔ ReflTransGen g.Uses n m := by
  constructor
  · intro hb
    induction hb with
    | refl => exact .refl
    | tail _ hu ih => exact ih.tail ((hk.uses (Nat.lt_of_le_of_lt (hg.below_le ih) hn)).mp hu)
  · intro hb
    induction hb with
    | refl => exact .refl
    | tail hb hu ih => exact ih.tail ((hk.uses (Nat.lt_of_le_of_lt (hg.below_le hb) hn)).mpr hu)

theorem below_of_mem_pending (hm : m ∈ g.pending name root) : ReflTransGen g.Uses root m := by
  unfold pending at hm
  generalize List.range (root + 1) = candidates at hm
  induction candidates generalizing m with
  | nil => cases hm
  | cons n candidates ih =>
    rw [List.foldr_cons] at hm
    generalize candidates.foldr _ [] = found at hm ih
    split at hm
    · rename_i hcond
      rcases List.mem_cons.mp hm with rfl | hm
      · simp only [Bool.and_eq_true, Bool.or_eq_true, beq_iff_eq, List.any_eq_true,
          List.contains_iff_mem] at hcond
        obtain ⟨-, rfl | ⟨p, hp, hu⟩⟩ := hcond
        · exact .refl
        · exact (ih hp).tail hu
      · exact ih hm
    · exact ih hm

/-- The tasks of one operation that a derivative of it takes. -/
def Needs (g : Graph) (name : String) (n : NodeId) (k : Task) : Prop :=
  (∃ op ns, g.nodes[n]? = some (.operation op ns)) ∧
    (k = .derivative n name ∨ k = .partials n ∧ g.ByPartials n)

theorem Keeps.needs (hk : g.Keeps h) (hn : n < g.size) : h.Needs name n k ↔ g.Needs name n k := by
  obtain ⟨node, hnode⟩ := exists_node hn
  simp only [Needs, ByPartials, hnode, hk hnode]

theorem Needs.owner (hk : g.Needs name n k) : k.owner = n := by
  obtain ⟨-, rfl | ⟨rfl, -⟩⟩ := hk <;> rfl

theorem Plan.known (hb : Plan g (.derivative n name) b) (hu : g.Uses n m) :
    (g.derivative? name m).isSome := by
  obtain ⟨op, ns, hn, hm⟩ := mem_operands.mp hu
  cases hb with
  | zero hn' =>
    obtain ⟨-, rfl⟩ : _ ∧ ns = [] := by simpa [hn] using hn'
    cases hm
  | @chain _ _ ns' _ _ hn' _ _ _ hd =>
    obtain ⟨-, rfl⟩ : _ ∧ ns = ns' := by simpa [hn] using hn'
    exact hd m hm
  | @quotient _ _ ns' _ _ _ hn' _ _ hd =>
    obtain ⟨-, rfl⟩ : _ ∧ ns = ns' := by simpa [hn] using hn'
    exact hd m hm

theorem Plan.partials_known (hb : Plan g (.derivative n name) b) (hby : g.ByPartials n) :
    (g.answer? (.partials n)).isSome := by
  obtain ⟨op, ns, hn, hne, hq⟩ := hby
  cases hb with
  | zero hn' =>
    obtain ⟨-, rfl⟩ : _ ∧ ns = [] := by simpa [hn] using hn'
    exact absurd rfl hne
  | chain _ _ _ hps _ => simp [hps]
  | quotient hn' _ hq' _ =>
    obtain ⟨rfl, rfl⟩ := Node.operation.inj (Option.some.inj (hn.symm.trans hn'))
    rw [hq] at hq'
    cases hq'

theorem answer?_isSome_iff (hn : g.nodes[n]? = some (.operation op ns)) :
    (g.answer? (.derivative n name)).isSome ↔ (g.derivative? name n).isSome := by
  simp [answer?, derivative?_operation hn]

/-- Below a derivative that is known, all are. -/
theorem Settled.known (hg : g.Settled) (hb : ReflTransGen g.Uses root n)
    (hroot : (g.derivative? name root).isSome) : (g.derivative? name n).isSome := by
  induction hb with
  | refl => exact hroot
  | tail _ hu ih =>
    obtain ⟨op, ns, hp, -⟩ := mem_operands.mp hu
    obtain ⟨b, hplan⟩ := hg _ ((answer?_isSome_iff hp).mpr ih)
    exact hplan.known hu

theorem Settled.needs (hg : g.Settled) (hb : ReflTransGen g.Uses root n)
    (hroot : (g.derivative? name root).isSome) (hk : g.Needs name n k) : (g.answer? k).isSome := by
  obtain ⟨⟨op, ns, hn⟩, hk⟩ := hk
  have hknown := (answer?_isSome_iff hn).mpr (hg.known hb hroot)
  obtain rfl | ⟨rfl, hby⟩ := hk
  · exact hknown
  · obtain ⟨b, hplan⟩ := hg _ hknown
    exact hplan.partials_known hby

theorem fill_needs (hg : g.Truthful) (hn : g.nodes[n]? = some (.operation op ns))
    (hknown : ∀ m ∈ ns, (g.derivative? name m).isSome) (hnone : g.derivative? name n = none) :
    ∃ ks, Performs g ks (g.fill name n) ∧ ∀ k ∈ ks, g.Needs name n k := by
  obtain ⟨ks, hks, hmem⟩ := fill_performs hg hn hknown hnone
  refine ⟨ks, hks, fun k hk => ⟨⟨op, ns, hn⟩, ?_⟩⟩
  exact ((hmem k).mp hk).imp id fun ⟨hk, hby, _⟩ => ⟨hk, hby⟩

theorem Ready.performs {ps : List NodeId} (hr : Ready g name ps) (hg : g.Truthful) :
    ∃ ks, Performs g ks (ps.foldl (Graph.fill name) g) ∧
      ∀ k ∈ ks, ∃ n ∈ ps, g.Needs name n k := by
  induction ps generalizing g with
  | nil => exact ⟨[], .nil, by simp⟩
  | cons n ps ih =>
    obtain ⟨hadv, -, hrest⟩ := hr.fill hg
    obtain ⟨ls, hls, hneeds⟩ := ih hrest hadv.truthful
    have hnone := hr.unknown n List.mem_cons_self
    obtain ⟨node, hnode⟩ := exists_node (hr.lt n List.mem_cons_self)
    cases node with
    | leaf l =>
      rw [derivative?_leaf hnode] at hnone
      cases hnone
    | operation op ns =>
      have hknown : ∀ m ∈ ns, (g.derivative? name m).isSome := fun m hm =>
        hr.operands_known hg.toWellFormed m (mem_operands.mpr ⟨op, ns, hnode, hm⟩)
      obtain ⟨ks, hks, hfirst⟩ := fill_needs hg hnode hknown hnone
      refine ⟨ks ++ ls, hks.append hls, fun k hk => ?_⟩
      rcases List.mem_append.mp hk with hk | hk
      · exact ⟨n, List.mem_cons_self, hfirst k hk⟩
      · obtain ⟨m, hm, hk⟩ := hneeds k hk
        have hlt := hr.lt m (List.mem_cons_of_mem _ hm)
        exact ⟨m, List.mem_cons_of_mem _ hm, (hadv.keeps.needs hlt).mp hk⟩

/-- Tasks that some requests need were performed, and the derivatives that were asked for are
known. -/
structure Serves (g : Graph) (requests : List (NodeId × String)) (h : Graph) : Prop where
  lt : ∀ q ∈ requests, q.1 < g.size
  truthful : h.Truthful
  performs : ∃ ks, Performs g ks h ∧
    ∀ k ∈ ks, ∃ q ∈ requests, ∃ m, ReflTransGen g.Uses q.1 m ∧ g.Needs q.2 m k
  known : ∀ q ∈ requests, (h.derivative? q.2 q.1).isSome

theorem Serves.nil (hg : g.Truthful) : Serves g [] g where
  lt := by simp
  truthful := hg
  performs := ⟨[], .nil, by simp⟩
  known := by simp

theorem Serves.retains (hr : Serves g requests h) (hg : g.WellFormed) : g.Retains h := by
  obtain ⟨ks, hks, -⟩ := hr.performs
  exact hks.retains hg

theorem Serves.settled (hr : Serves g requests h) (hg : g.WellFormed) (hs : g.Settled) :
    h.Settled := by
  obtain ⟨ks, hks, -⟩ := hr.performs
  exact hks.settled hg hs

/-- Requests served one after the other. What the later ones need is what they needed before. -/
theorem Serves.append {qs rs : List (NodeId × String)} (hgh : Serves g qs h) (hhi : Serves h rs i)
    (hg : g.WellFormed) (hlt : ∀ q ∈ rs, q.1 < g.size) : Serves g (qs ++ rs) i where
  lt := List.forall_mem_append.mpr ⟨hgh.lt, hlt⟩
  truthful := hhi.truthful
  performs := by
    have hkeeps := (hgh.retains hg).keeps
    obtain ⟨ks, hks, hqs⟩ := hgh.performs
    obtain ⟨ls, hls, hrs⟩ := hhi.performs
    refine ⟨ks ++ ls, hks.append hls, fun k hk => ?_⟩
    rcases List.mem_append.mp hk with hk | hk
    · obtain ⟨q, hq, hneeds⟩ := hqs k hk
      exact ⟨q, List.mem_append_left _ hq, hneeds⟩
    · obtain ⟨q, hq, m, hb, hk⟩ := hrs k hk
      have hb := (hkeeps.below hg (hlt q hq)).mp hb
      have hm := Nat.lt_of_le_of_lt (hg.below_le hb) (hlt q hq)
      exact ⟨q, List.mem_append_right _ hq, m, hb, (hkeeps.needs hm).mp hk⟩
  known := by
    refine List.forall_mem_append.mpr ⟨fun q hq => ?_, hhi.known⟩
    have hretains := hhi.retains hgh.truthful.toWellFormed
    exact (hretains.known ((hgh.retains hg).keeps.lt (hgh.lt q hq)) (hgh.known q hq)).1

/-- What serves one request at a time serves a list of them. -/
theorem serves_foldl (step : Graph → NodeId × String → Graph)
    (requests : List (NodeId × String))
    (hstep : ∀ {h : Graph}, h.Truthful → ∀ q ∈ requests, q.1 < h.size →
      Serves h [q] (step h q))
    (hg : g.Truthful) (hlt : ∀ q ∈ requests, q.1 < g.size) :
    Serves g requests (requests.foldl step g) := by
  induction requests generalizing g with
  | nil => exact .nil hg
  | cons q requests ih =>
    obtain ⟨hq, hrest⟩ := List.forall_mem_cons.mp hlt
    have hfirst := hstep hg q List.mem_cons_self hq
    have hkeeps := (hfirst.retains hg.toWellFormed).keeps
    have hlast := ih (fun hh r hr => hstep hh r (List.mem_cons_of_mem _ hr)) hfirst.truthful
      fun r hr => hkeeps.lt (hrest r hr)
    exact hfirst.append hlast hg.toWellFormed hrest

/-- Only what was there needs to be worked out. -/
theorem Serves.tasks (hr : Serves g requests h) (hg : g.WellFormed) :
    ∃ ks, Performs g ks h ∧
      ∀ k ∈ ks, ∃ name, k.owner < g.size ∧ g.Needs name k.owner k := by
  obtain ⟨ks, hks, hneeds⟩ := hr.performs
  refine ⟨ks, hks, fun k hk => ?_⟩
  obtain ⟨q, hq, m, hb, hk⟩ := hneeds k hk
  obtain rfl := hk.owner
  exact ⟨q.2, Nat.lt_of_le_of_lt (hg.below_le hb) (hr.lt q hq), hk⟩

/-- What is answered in the end was answered before, or is needed for a request. -/
theorem Serves.isSome_iff (hr : Serves g requests h) (hg : g.WellFormed) (hs : g.Settled)
    (hl : l.owner < g.size) : (h.answer? l).isSome ↔
      (g.answer? l).isSome ∨
      ∃ q ∈ requests, ∃ m, ReflTransGen g.Uses q.1 m ∧ g.Needs q.2 m l := by
  obtain ⟨ks, hks, hneeds⟩ := hr.performs
  constructor
  · rw [hks.isSome_iff hl]
    exact fun hsome => hsome.imp id (hneeds l)
  · rintro (hbefore | ⟨q, hq, m, hb, hk⟩)
    · exact (hks.isSome_iff hl).mpr (.inl hbefore)
    · have hkeeps := (hks.retains hg).keeps
      have hm := Nat.lt_of_le_of_lt (hg.below_le hb) (hr.lt q hq)
      exact (hks.settled hg hs).needs ((hkeeps.below hg (hr.lt q hq)).mpr hb) (hr.known q hq)
        ((hkeeps.needs hm).mpr hk)

theorem derivative_serves (hg : g.Truthful) (hn : n < g.size) (name : String) :
    Serves g [(n, name)] (g.derivative name n).1 := by
  have ha := derivative_answers hg hn name
  obtain ⟨ks, hks, hneeds⟩ := (pending_ready hg.toWellFormed hn).performs hg
  refine ⟨by simpa using hn, ha.advances.truthful, ⟨ks, hks, fun k hk => ?_⟩,
    by simp [ha.known]⟩
  obtain ⟨m, hm, hk⟩ := hneeds k hk
  exact ⟨_, List.mem_singleton_self _, m, below_of_mem_pending hm, hk⟩

theorem derivative_isSome_iff (hg : g.Truthful) (hs : g.Settled) (hn : n < g.size) (name : String)
    (hl : l.owner < g.size) : ((g.derivative name n).1.answer? l).isSome ↔
      (g.answer? l).isSome ∨ ∃ m, ReflTransGen g.Uses n m ∧ g.Needs name m l := by
  simpa using (derivative_serves hg hn name).isSome_iff hg.toWellFormed hs hl

end Fluxion.Graph

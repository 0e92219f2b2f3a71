import Fluxion.Proofs.Graph.Frame
import Fluxion.Proofs.Session.Sharing

namespace Fluxion.Session

open Relation

variable {s : Session} {r q n m : Nat} {name : String}

/-- After a derivative, a register holds what it held, or the derivative. -/
theorem node_perform_derivative_cases (hr : s.node r = .ok n)
    (hq : (s.perform (.derivative r name)).1.node q = .ok m) :
    m ∈ s.registers ∨ m = (s.graph.derivative name n).2 := by
  rw [perform_derivative hr] at hq
  have hmem := Array.mem_of_getElem? (node_eq_ok.mp hq)
  rw [Array.mem_def, Array.toList_appendList, List.mem_append, ← Array.mem_def] at hmem
  exact hmem.imp id List.mem_singleton.mp

/-- The sums to work with are held by no register either. -/
theorem Sound.not_held (hs : s.Sound) (hr : s.node r = .ok n) (hm : s.graph.size ≤ m)
    (hunled : ∀ k, ¬ (s.perform (.derivative r name)).1.graph.Links k m) (q : Nat) :
    (s.perform (.derivative r name)).1.node q ≠ .ok m := by
  intro hq
  have hn := hs.node_lt hr
  have ha := Graph.derivative_answers hs.truthful hn name
  rw [graph_perform_derivative hr] at hunled
  rcases node_perform_derivative_cases hr hq with hold | rfl
  · exact absurd (hs.held m hold) (Nat.not_lt.mpr hm)
  · obtain ⟨node, hnode⟩ := Graph.exists_node hn
    have hafter := ha.advances.keeps hnode
    cases node with
    | leaf l =>
      have hd := ha.known
      rw [Graph.derivative?_leaf hafter] at hd
      rw [← Option.some.inj hd] at hm
      exact absurd (hs.truthful.shared_lt _) (Nat.not_lt.mpr hm)
    | operation op ns => exact hunled n (Graph.links_derivative hafter ha.known)

/-- What remembers a derivative has all operations below it remember theirs. -/
theorem Sound.derivative_below (hs : s.Sound) {root : Nat} {op : Operator} {ns : List NodeId}
    (hroot : ((s.graph.memo root).derivatives.lookup name).isSome)
    (hb : ReflTransGen s.graph.Uses root m) (hm : s.graph.nodes[m]? = some (.operation op ns)) :
    ((s.graph.memo m).derivatives.lookup name).isSome := by
  obtain ⟨b, hplan⟩ := hs.settled _ (Graph.isSome_answer?_derivative.mpr hroot)
  obtain ⟨op', ns', hnode⟩ : ∃ op' ns', s.graph.nodes[root]? = some (.operation op' ns') :=
    hplan.operation
  rw [← Graph.derivative?_operation hnode] at hroot
  rw [← Graph.derivative?_operation hm]
  exact hs.settled.known hb hroot

/-- After any run, a derivative changes the nodes that are there in one way only: the operations at
or below the node that was asked for have a derivative by the variable, and partial derivatives
where it comes from them. New nodes that remember partial derivatives have a rule for them and are
sums to work with: neither a node nor a register leads to them. Wherever a derivative is remembered,
it is so at all operations below. -/
theorem derivative_footprint_after_run (steps : List Step) (hr : (start.run steps).node r = .ok n)
    (name : String) :
    let s := start.run steps
    let after := (s.perform (.derivative r name)).1
    s.graph.Footprint n name after.graph ∧
      (∀ m, s.graph.size ≤ m → (after.graph.memo m).partials?.isSome →
        after.graph.ByPartials m ∧ (∀ k, ¬ after.graph.Links k m) ∧
          ∀ q, after.node q ≠ .ok m) ∧
      ∀ (other : String) (root m : Nat) (op : Operator) (ns : List NodeId),
        ((s.graph.memo root).derivatives.lookup other).isSome →
        ReflTransGen s.graph.Uses root m →
        s.graph.nodes[m]? = some (.operation op ns) →
        ((s.graph.memo m).derivatives.lookup other).isSome := by
  intro s after
  have hs : s.Sound := start_sound.run steps
  have hn : n < s.graph.size := hs.node_lt hr
  have hgraph : after.graph = (s.graph.derivative name n).1 := graph_perform_derivative hr name
  have hdetached : after.graph.Detached s.graph.size := by
    rw [hgraph]
    exact Graph.derivative_detached hs.truthful hs.settled hn name
  refine ⟨?_, fun m hm hsome => ?_,
    fun other root m op ns hroot hb hm => hs.derivative_below hroot hb hm⟩
  · rw [hgraph]
    exact Graph.derivative_footprint hs.truthful hs.settled hn name
  · obtain ⟨hby, hunled⟩ := hdetached.sums hm hsome
    exact ⟨hby, hunled, hs.not_held hr hm hunled⟩

/-- The distance of a product and one of its operands, after the
product was differentiated by `y`. -/
theorem derivative_footprint_distance :
    let s := start.run [.var "x", .var "y", .operation "*" [0, 1], .operation "distance2" [2, 1],
      .derivative 2 "y"]
    let after := (s.perform (.derivative 3 "x")).1
    ((after.graph.memo 6).derivatives.lookup "x").isSome ∧
      (after.graph.memo 6).derivatives.lookup "y" = some 10 ∧
      (after.graph.memo 6).partials? = some [5, 4] ∧
      (after.graph.memo 7).derivatives.lookup "y" = none ∧
      ¬ (after.graph.memo 7).partials?.isSome ∧
      (after.graph.memo 14).partials?.isSome ∧ ∀ k, ¬ after.graph.Links k 14 := by
  intro s after
  have hr : s.node 3 = .ok 7 := by decide +kernel
  have hproduct : s.graph.nodes[6]? = some (.operation (.any .multiply) [4, 5]) := by decide +kernel
  have hdistance : s.graph.nodes[7]? = some (.operation (.numbered .distance 2) [6, 5]) := by
    decide +kernel
  have hbefore : s.graph.size = 11 ∧ (s.graph.memo 6).derivatives = [("y", 10)] ∧
      (s.graph.memo 6).partials? = some [5, 4] ∧ (s.graph.memo 7).derivatives = [] ∧
      (s.graph.memo 7).partials? = none := by decide +kernel
  obtain ⟨hsize, hy, hps, hnone, hnops⟩ := hbefore
  have hafter : (after.graph.memo 14).partials?.isSome := by decide +kernel
  have hbelow : ReflTransGen s.graph.Uses 7 6 :=
    .single (Graph.mem_operands.mpr ⟨_, _, hdistance, by simp⟩)
  obtain ⟨hfootprint, hsums, -⟩ := derivative_footprint_after_run
    [.var "x", .var "y", .operation "*" [0, 1], .operation "distance2" [2, 1],
      .derivative 2 "y"] hr "x"
  obtain ⟨-, hunled, -⟩ := hsums 14 (by rw [hsize]; decide) hafter
  refine ⟨?_, ?_, ?_, ?_, ?_, hafter, hunled⟩
  · exact (hfootprint.derivative_iff 6 _ _ hproduct).mpr (.inr hbelow)
  · rw [hfootprint.others 6 (by rw [hsize]; decide) "y" (by decide), hy]
    rfl
  · exact hfootprint.partials 6 (by rw [hsize]; decide) _ hps
  · rw [hfootprint.others 7 (by rw [hsize]; decide) "y" (by decide), hnone]
    rfl
  · rw [hfootprint.partials_iff 7 (by rw [hsize]; decide), hnops, Graph.byPartials_iff hdistance]
    simp [Primitive.quotient?, Operator.numbered]

end Fluxion.Session

import Fluxion.Proofs.Graph.Tasks

namespace Fluxion.Graph

variable {g h i : Graph} {n m first : Nat} {name : String} {op : Operator} {ns ps : List NodeId}
  {k l : Task} {ks : List Task} {b : Nat → Block} {d : NodeId}

/-- All nodes and all answers are still there. -/
structure Retains (g h : Graph) : Prop where
  keeps : g.Keeps h
  answers :
    ∀ {k : Task} {answer : List NodeId}, g.answer? k = some answer → h.answer? k = some answer

theorem Retains.refl (g : Graph) : g.Retains g := ⟨.refl g, id⟩

theorem Retains.trans (hgh : g.Retains h) (hhi : h.Retains i) : g.Retains i :=
  ⟨hgh.keeps.trans hhi.keeps, fun ha => hhi.answers (hgh.answers ha)⟩

theorem Retains.derivative? (hgh : g.Retains h) (hm : m < g.size)
    (hd : g.derivative? name m = some d) : h.derivative? name m = some d := by
  obtain ⟨node, hnode⟩ := exists_node hm
  cases node with
  | leaf l =>
    rw [derivative?_leaf hnode] at hd
    rw [derivative?_leaf (hgh.keeps hnode), hd]
  | operation op ns =>
    rw [derivative?_operation hnode] at hd
    have ha : g.answer? (.derivative m name) = some [d] := by simp [answer?, hd]
    have hb := hgh.answers ha
    rw [derivative?_operation (hgh.keeps hnode)]
    simpa [answer?] using hb

theorem Retains.known (hgh : g.Retains h) (hm : m < g.size) (hd : (g.derivative? name m).isSome) :
    (h.derivative? name m).isSome ∧ h.derivativeOf name m = g.derivativeOf name m := by
  obtain ⟨d, hd⟩ := Option.isSome_iff_exists.mp hd
  have hh := hgh.derivative? hm hd
  rw [derivativeOf_eq hd, derivativeOf_eq hh, hh]
  exact ⟨rfl, rfl⟩

theorem Adds.keeps (ha : g.Adds k h) : g.Keeps h := by
  intro n node hn
  have hs : n < g.nodes.size := lt_size hn
  rw [ha.nodes, Array.getElem?_append_left hs, hn]

theorem Adds.size (ha : g.Adds k h) : h.size = g.size + (g.block g.size k).nodes.length := by
  simp [Graph.size, ha.nodes]

theorem Adds.retains (ha : g.Adds k h) (hg : g.WellFormed) (hnone : g.answer? k = none) :
    g.Retains h := by
  refine ⟨ha.keeps, fun {l answer} hl => ?_⟩
  have hne : l ≠ k := by
    rintro rfl
    rw [hnone] at hl
    cases hl
  rw [ha.answers l (lt_of_answer? hg hl), if_neg hne, hl]

/-- A plan stands, whatever is worked out after it was made. -/
theorem Plan.retains (hb : Plan g k b) (hg : g.WellFormed) (hgh : g.Retains h) : Plan h k b := by
  cases hb with
  | partials hn => exact .partials (hgh.keeps hn)
  | zero hn => exact .zero (hgh.keeps hn)
  | @chain n op ns ps name hn hne hq hps hd =>
    have hknown (m : Nat) (hm : m ∈ ns) := hgh.known (hg.operand_lt_size hn hm) (hd m hm)
    rw [← List.map_congr_left fun m hm => (hknown m hm).2]
    exact .chain (hgh.keeps hn) hne hq (hgh.answers hps) fun m hm => (hknown m hm).1
  | @quotient n op ns inner divisor name hn hne hq hd =>
    have hknown (m : Nat) (hm : m ∈ ns) := hgh.known (hg.operand_lt_size hn hm) (hd m hm)
    rw [← List.map_congr_left fun m hm => (hknown m hm).2]
    exact .quotient (hgh.keeps hn) hne hq fun m hm => (hknown m hm).1

end Fluxion.Graph

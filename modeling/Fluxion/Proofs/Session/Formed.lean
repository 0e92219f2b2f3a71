import Fluxion.Proofs.Graph.Fitting
import Fluxion.Proofs.Reading.Language
import Fluxion.Proofs.Session.Soundness

namespace Fluxion

theorem Operator.takes_of_require {sign : String} {count : Nat} {op : Operator}
    (h : Operator.require sign count = .ok op) : op.Takes count := by
  unfold Operator.require at h
  split at h
  · cases h
  · rename_i op' hop
    split at h
    · cases h
    · rename_i hmismatch
      obtain rfl := Except.ok.inj h
      rw [Operator.ofSign?] at hop
      exact ⟨.inl (List.mem_of_find?_eq_some hop), Arity.mismatch?_eq_none_iff.mp hmismatch⟩

namespace Session

variable {s : Session} {g : Graph} {step : Step} {r : Graph × List NodeId}

theorem formed_insert {read : Except ParseError Expr} (hs : s.graph.Formed)
    (hread : ∀ e, read = .ok e → e.Formed) (h : s.insert read = .ok r) : r.1.Formed := by
  obtain ⟨e, he, h⟩ := except_bind_eq_ok.mp h
  obtain rfl := Except.ok.inj h
  exact hs.insert (hread e (except_mapError_eq_ok.mp he))

theorem formed_supply {a : Operand} {r : Graph × NodeId} (hg : g.Formed)
    (h : s.supply g a = .ok r) : r.1.Formed := by
  cases a with
  | register i =>
    obtain ⟨n, -, rfl⟩ := except_map_eq_ok.mp h
    exact hg
  | number value =>
    obtain rfl := Except.ok.inj h
    exact hg.add_leaf _

theorem formed_effect (hs : s.graph.Formed) (h : s.effect step = .ok r) : r.1.Formed := by
  cases step with
  | read _ text => exact formed_insert hs (fun _ => Reading.formed_of_read) h
  | readBytes _ bytes => exact formed_insert hs (fun _ => Reading.formed_of_readBytes) h
  | reread i form =>
    obtain ⟨e, -, h⟩ := except_bind_eq_ok.mp h
    exact formed_insert hs (fun _ => Reading.formed_of_read) h
  | constant value =>
    obtain rfl := Except.ok.inj h
    exact hs.add_leaf _
  | shared c =>
    obtain rfl := Except.ok.inj h
    exact hs
  | var name =>
    obtain ⟨v, -, h⟩ := except_bind_eq_ok.mp h
    obtain rfl := Except.ok.inj h
    exact hs.add_leaf _
  | operation sign is =>
    obtain ⟨ns, hns, h⟩ := except_bind_eq_ok.mp h
    obtain ⟨op, hop, h⟩ := except_bind_eq_ok.mp h
    obtain rfl := Except.ok.inj h
    exact hs.add_operation (Operator.takes_of_require (except_mapError_eq_ok.mp hop))
  | binary op a b =>
    obtain ⟨left, hl, h⟩ := except_bind_eq_ok.mp h
    obtain ⟨right, hr, h⟩ := except_bind_eq_ok.mp h
    obtain rfl := Except.ok.inj h
    have htakes : (Operator.any op.primitive).Takes 2 := Operator.takes_any (by cases op <;> rfl)
    exact (formed_supply (formed_supply hs hl) hr).add_operation htakes
  | negate i =>
    obtain ⟨m, -, h⟩ := except_bind_eq_ok.mp h
    obtain rfl := Except.ok.inj h
    exact hs.add_operation (Operator.takes_any rfl)
  | derivative i name =>
    obtain ⟨m, -, h⟩ := except_bind_eq_ok.mp h
    obtain rfl := Except.ok.inj h
    exact hs.derivative name m
  | gradient i =>
    obtain ⟨m, -, h⟩ := except_bind_eq_ok.mp h
    obtain rfl := Except.ok.inj h
    exact hs.derivatives? _ m
  | operand i j =>
    obtain ⟨m, -, h⟩ := except_bind_eq_ok.mp h
    obtain rfl := Except.ok.inj h
    exact hs
  | copy i =>
    obtain ⟨m, -, h⟩ := except_bind_eq_ok.mp h
    obtain rfl := Except.ok.inj h
    exact hs

theorem formed_perform (hs : s.graph.Formed) (step : Step) : (s.perform step).1.graph.Formed := by
  unfold Session.perform
  split
  · rename_i h ns he
    exact formed_effect hs he
  · exact hs

theorem formed_run (hs : s.graph.Formed) (steps : List Step) : (s.run steps).graph.Formed := by
  induction steps generalizing s with
  | nil => exact hs
  | cons step steps ih => exact ih (formed_perform hs step)

theorem formed_expr {steps : List Step} {r : Nat} {e : Expr}
    (he : (start.run steps).expr r = .ok e) : e.Formed := by
  obtain ⟨n, hn, rfl⟩ := except_map_eq_ok.mp he
  have hs := start_sound.run steps
  exact (formed_run Graph.initial_formed steps).expr hs.truthful.toWellFormed (hs.node_lt hn)

/-- What holds of a graph, and then after all that a step can do to it, holds after any run. -/
theorem Sound.graph_invariant {P : Graph → Prop} (hs : s.Sound) (hf : s.graph.Formed)
    (hevolves : ∀ {g h : Graph}, g.Truthful → g.Formed → g.Evolves h → P g → P h)
    (hP : P s.graph) (steps : List Step) : P (s.run steps).graph := by
  have h : (s.run steps).graph.Formed ∧ P (s.run steps).graph := by
    apply hs.run_invariant (P := fun t => t.graph.Formed ∧ P t.graph)
    · intro t step ht hP
      exact ⟨formed_perform hP.1 step, hevolves ht.truthful hP.1 (ht.evolves_perform step) hP.2⟩
    · exact ⟨hf, hP⟩
  exact h.2

theorem fitting_after_run (steps : List Step) : (start.run steps).graph.Fitting :=
  start_sound.graph_invariant Graph.initial_formed (fun ht hf hgh hfit => hfit.evolves ht hf hgh)
    Graph.initial_fitting steps

/-- After any run, every operation has as many operands as its sign and the operation under it take,
and one partial derivative for each of them if it remembers any. So evaluation and the rules of
differentiation find whatever they look up by place, and the chain rule passes over no operand. -/
theorem formed_after_run (steps : List Step) :
    let g := (start.run steps).graph
    (∀ (n : Nat) (op : Operator) (ns : List NodeId), g.nodes[n]? = some (.operation op ns) →
      op.arity.accepts ns.length ∧ op.primitive.arity.accepts ns.length ∧
        op.primitive.partialsAt? Shared.id ns = some (op.primitive.partials Shared.id ns) ∧
        (op.primitive.quotient? Shared.id ns = none →
          (op.primitive.partials Shared.id ns).length = ns.length) ∧
        ∀ ps, (g.memo n).partials? = some ps → op.primitive.quotient? Shared.id ns = none ∧
          ps.length = ns.length ∧ (ps.zip ns).map Prod.snd = ns) ∧
      (∀ (n : Nat) (v : Variable), g.nodes[n]? = some (.leaf (.var v)) → v.index < 3) ∧
      ∀ n : Nat, n < g.size → ∀ (K : Type) (A : Arithmetic K) (point : Point K),
        (g.expr n).evalAt? A [point.x, point.y, point.z] = some ((g.expr n).eval A point) := by
  intro g
  have hg : g.Truthful := (start_sound.run steps).truthful
  have hf : g.Formed := formed_run Graph.initial_formed steps
  have hfitting : g.Fitting := fitting_after_run steps
  refine ⟨fun n op ns hn => ?_, fun n v _ => v.index_lt, fun n hn K A point => ?_⟩
  · have hop := hf hn
    refine ⟨hop.accepts, hop.primitive, Primitive.partialsAt?_eq hop.primitive,
      Primitive.length_partials hop.primitive, fun ps hps => ?_⟩
    obtain ⟨hby, hlength⟩ := hfitting hps
    rw [Graph.operands_eq hn] at hlength
    exact ⟨((Graph.byPartials_iff hn).mp hby).2, hlength,
      List.map_snd_zip (Nat.le_of_eq hlength.symm)⟩
  · exact Expr.evalAt?_eq (hf.expr hg.toWellFormed hn) point

/-- The derivative of a distance leaves behind a sum of squares with its two partial derivatives,
and a distance with no number that still takes two operands. -/
theorem formed_distance :
    let g :=
      (start.run [.var "x", .var "y", .operation "distance2" [0, 1], .derivative 2 "x"]).graph
    (g.nodes[7]? = some (.operation (.any .sumsq) [4, 5]) ∧ (g.memo 7).partials? = some [8, 9] ∧
        (List.zip [8, 9] [4, 5]).map Prod.snd = [4, 5]) ∧
      (g.nodes[13]? = some (.operation (.any .distance) [4, 5]) ∧
        Primitive.distance.arity.accepts 2) ∧
      g.nodes[5]? = some (.leaf (.var .y)) ∧ Variable.y.index < 3 := by
  intro g
  have hsum : g.nodes[7]? = some (.operation (.any .sumsq) [4, 5]) := by decide +kernel
  have hpartials : (g.memo 7).partials? = some [8, 9] := by decide +kernel
  have hdistance : g.nodes[13]? = some (.operation (.any .distance) [4, 5]) := by decide +kernel
  have hleaf : g.nodes[5]? = some (.leaf (.var .y)) := by decide +kernel
  obtain ⟨hoperations, hvariables, -⟩ := formed_after_run
    [.var "x", .var "y", .operation "distance2" [0, 1], .derivative 2 "x"]
  obtain ⟨-, -, -, -, hall⟩ := hoperations 7 _ _ hsum
  obtain ⟨-, haccepts, -⟩ := hoperations 13 _ _ hdistance
  exact ⟨⟨hsum, hpartials, (hall _ hpartials).2.2⟩, ⟨hdistance, haccepts⟩, hleaf,
    hvariables 5 .y hleaf⟩

end Session
end Fluxion

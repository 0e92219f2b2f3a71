import Fluxion.Proofs.Graph.Products
import Fluxion.Proofs.Session.Cycles
import Fluxion.Proofs.Session.Equality

namespace Fluxion.Session

variable {s : Session} {r n : Nat} {op : Operator} {ns : List NodeId}

theorem Sound.retains_run (hs : s.Sound) (steps : List Step) :
    s.graph.Retains (s.run steps).graph := by
  apply hs.run_invariant (P := fun t => s.graph.Retains t.graph)
  · intro t step ht hretains
    exact hretains.trans ((ht.evolves_perform step).retains ht.truthful)
  · exact .refl s.graph

theorem quotients_after_run (steps : List Step) : (start.run steps).graph.Quotients :=
  start_sound.graph_invariant Graph.initial_formed (fun ht _ hgh hq => hgh.quotients ht hq)
    Graph.initial_quotients steps

section Known

variable {steps : List Step} {name : String} {d : NodeId}
  (hn : (start.run steps).graph.nodes[n]? = some (.operation op ns)) (hne : ns ≠ [])
  (hd : (start.run steps).graph.derivative? name n = some d)

include hn hne hd

theorem chained_of_known (hq : op.primitive.quotient? Shared.id ns = none) :
    ∃ ps, (start.run steps).graph.answer? (.partials n) = some ps ∧
      (start.run steps).graph.Chained name ns ps d :=
  have hrecorded := start_sound.recorded_run Graph.initial_recorded steps
  hrecorded.chained (fitting_after_run steps) hn hne hq hd

theorem ratio_distance_of_known (hop : op.primitive = .distance) : ∃ numerator divisor root,
    (start.run steps).graph.Ratio name n .sumsq .distance ns d numerator divisor root ∧
      (start.run steps).graph.nodes[divisor]? =
        some (.operation (.any .multiply) [Shared.two.id, root]) := by
  have hrecorded := start_sound.recorded_run Graph.initial_recorded steps
  have hacyclic := start_sound.acyclic_run Graph.initial_acyclic steps
  exact Graph.exists_ratio_distance (start_sound.run steps).truthful hrecorded
    (distinct_after_run steps)
    hacyclic (quotients_after_run steps) hn hne hop hd

theorem ratio_lse_of_known (hop : op.primitive = .lse) : ∃ numerator root,
    (start.run steps).graph.Ratio name n .sumexp .sumexp ns d numerator root root := by
  have hrecorded := start_sound.recorded_run Graph.initial_recorded steps
  have hacyclic := start_sound.acyclic_run Graph.initial_acyclic steps
  exact Graph.exists_ratio_lse (start_sound.run steps).truthful hrecorded (distinct_after_run steps)
    hacyclic (quotients_after_run steps) hn hne hop hd

end Known

/-- What was asked for is known in the next state of the run. -/
theorem exists_known_asked (steps : List Step) (hr : (start.run steps).node r = .ok n)
    (hn : (start.run steps).graph.nodes[n]? = some (.operation op ns)) (name : String) :
    let after := start.run (steps ++ [Step.derivative r name])
    ∃ d, (start.run steps).asked r name = .ok d ∧
      after.graph.nodes[n]? = some (.operation op ns) ∧
      after.graph.derivative? name n = some d := by
  intro after
  have hs := start_sound.run steps
  have hafter : after = (start.run steps).run [Step.derivative r name] := run_append ..
  have hd := asked_eq hr name
  rw [hafter]
  exact ⟨_, hd, (hs.retains_run _).keeps hn, hs.known_of_asked hr hd []⟩

theorem exists_chained_asked (steps : List Step) (hr : (start.run steps).node r = .ok n)
    (hn : (start.run steps).graph.nodes[n]? = some (.operation op ns)) (hne : ns ≠ [])
    (hq : op.primitive.quotient? Shared.id ns = none) (name : String) :
    let after := start.run (steps ++ [Step.derivative r name])
    ∃ ps d, (start.run steps).asked r name = .ok d ∧
      after.graph.answer? (.partials n) = some ps ∧
      after.graph.Chained name ns ps d := by
  intro after
  obtain ⟨d, hd, hnode, hknown⟩ := exists_known_asked steps hr hn name
  obtain ⟨ps, hps, hchained⟩ := chained_of_known hnode hne hknown hq
  exact ⟨ps, d, hd, hps, hchained⟩

/-- Whatever steps come in between, the derivative by another variable
has the same partial derivatives. -/
theorem exists_chained_later {ps : List NodeId} (steps : List Step)
    (hr : (start.run steps).node r = .ok n)
    (hn : (start.run steps).graph.nodes[n]? = some (.operation op ns)) (hne : ns ≠ [])
    (hq : op.primitive.quotient? Shared.id ns = none)
    (hps : (start.run steps).graph.answer? (.partials n) = some ps) (more : List Step)
    (other : String) :
    ∃ e, ((start.run steps).run more).asked r other = .ok e ∧
      (((start.run steps).run more).perform (.derivative r other)).1.graph.Chained other
        ns ps e := by
  have hs := start_sound.run steps
  have hr' := node_run hr more
  have hn' := (hs.retains_run more).keeps hn
  have hretains := hs.retains_run (more ++ [Step.derivative r other])
  rw [← run_append] at hr' hn' hretains ⊢
  obtain ⟨ps', e, he, hps', hchained⟩ :=
    exists_chained_asked (steps ++ more) hr' hn' hne hq other
  rw [← List.append_assoc] at hretains
  obtain rfl : ps = ps' := Option.some.inj ((hretains.answers hps).symm.trans hps')
  rw [run_append start (steps ++ more)] at hchained
  exact ⟨e, he, hchained⟩

/-- The derivative of an operation over operands, asked for after any run. If the operation has a
rule of partial derivatives, the derivative is the sum from the left of products, in the order of
the operands: each of a partial derivative, which is the same node for every variable and for
good, and of the very node that the derivative of the operand is. The partial derivatives of a
product are its own operands, the other way round. The derivative of a distance is a quotient of
such a sum by twice a distance over the same operands, and that of a logarithm is one by a sum of
exponentials over them. That distance or sum is neither the node that was asked for nor the one
whose derivative the numerator is. -/
theorem derivative_shape_after_run (steps : List Step) (hr : (start.run steps).node r = .ok n)
    (hn : (start.run steps).graph.nodes[n]? = some (.operation op ns)) (hne : ns ≠ [])
    (name : String) :
    let s := start.run steps
    let after := (s.perform (.derivative r name)).1
    (op.primitive ≠ .distance → op.primitive ≠ .lse → ∃ ps d, s.asked r name = .ok d ∧
      after.graph.Chained name ns ps d ∧
      (op.primitive = .multiply → ∃ a b, ns = [a, b] ∧ ps = [b, a]) ∧
      ∀ (more : List Step) (other : String), ∃ e, (after.run more).asked r other = .ok e ∧
        ((after.run more).perform (.derivative r other)).1.graph.Chained other ns ps e) ∧
    (op.primitive = .distance → ∃ q numerator divisor root, s.asked r name = .ok q ∧
      after.graph.Ratio name n .sumsq .distance ns q numerator divisor root ∧
      after.graph.nodes[divisor]? = some (.operation (.any .multiply) [Shared.two.id, root])) ∧
    (op.primitive = .lse → ∃ q numerator root, s.asked r name = .ok q ∧
      after.graph.Ratio name n .sumexp .sumexp ns q numerator root root) := by
  intro s after
  have hafter : start.run (steps ++ [Step.derivative r name]) = after := run_append ..
  obtain ⟨q, hasked, hnode, hknown⟩ := exists_known_asked steps hr hn name
  refine ⟨fun hdistance hlse => ?_, fun hop => ?_, fun hop => ?_⟩
  · have hq : op.primitive.quotient? Shared.id ns = none := by
      cases hop : op.primitive <;> first | rfl | contradiction
    obtain ⟨ps, hps, hchained⟩ := chained_of_known hnode hne hknown hq
    have hrecorded :=
      start_sound.recorded_run Graph.initial_recorded (steps ++ [Step.derivative r name])
    have hformed : (start.run (steps ++ [Step.derivative r name])).graph.Formed :=
      formed_run Graph.initial_formed _
    have hr' := node_perform hr (.derivative r name)
    have hlater :=
      exists_chained_later (steps ++ [Step.derivative r name]) (by rwa [hafter]) hnode hne hq hps
    have hmultiply := fun hop => hrecorded.partials_multiply hformed hnode hop hps
    rw [hafter] at hchained hlater
    exact ⟨ps, q, hasked, hchained, hmultiply, hlater⟩
  · obtain ⟨numerator, divisor, root, hratio, hdivisor⟩ :=
      ratio_distance_of_known hnode hne hknown hop
    rw [hafter] at hratio hdivisor
    exact ⟨q, numerator, divisor, root, hasked, hratio, hdivisor⟩
  · obtain ⟨numerator, root, hratio⟩ := ratio_lse_of_known hnode hne hknown hop
    rw [hafter] at hratio
    exact ⟨q, numerator, root, hasked, hratio⟩

/-- The distance of a product and one of its operands by `x`, and the product by `x` and then by
`y`. -/
theorem derivative_shape_distance :
    let s := start.run [.var "x", .var "y", .operation "*" [0, 1], .operation "distance2" [2, 1]]
    let distance := (s.perform (.derivative 3 "x")).1
    let product := (s.perform (.derivative 2 "x")).1
    s.asked 3 "x" = .ok 19 ∧ distance.graph.Ratio "x" 7 .sumsq .distance [6, 5] 19 16 18 17 ∧
      distance.graph.nodes[18]? = some (.operation (.any .multiply) [Shared.two.id, 17]) ∧
      s.asked 2 "x" = .ok 10 ∧ product.graph.Chained "x" [4, 5] [5, 4] 10 ∧
      ∃ e, product.asked 2 "y" = .ok e ∧
        (product.perform (.derivative 2 "y")).1.graph.Chained "y" [4, 5] [5, 4] e := by
  intro s distance product
  have hr : s.node 3 = .ok 7 ∧ s.node 2 = .ok 6 := by decide +kernel
  have hn : s.graph.nodes[7]? = some (.operation (.numbered .distance 2) [6, 5]) := by
    decide +kernel
  have hn' : s.graph.nodes[6]? = some (.operation (.any .multiply) [4, 5]) := by decide +kernel
  have hasked : s.asked 3 "x" = .ok 19 ∧ s.asked 2 "x" = .ok 10 := by decide +kernel
  have hquotient : distance.graph.nodes[19]? = some (.operation (.any .divide) [16, 18]) := by
    decide +kernel
  have hdivisor :
      distance.graph.nodes[18]? = some (.operation (.any .multiply) [Shared.two.id, 17]) := by
    decide +kernel
  obtain ⟨-, hdistance, -⟩ :=
    derivative_shape_after_run [.var "x", .var "y", .operation "*" [0, 1],
      .operation "distance2" [2, 1]] hr.1 hn (by decide) "x"
  obtain ⟨hproduct, -, -⟩ :=
    derivative_shape_after_run [.var "x", .var "y", .operation "*" [0, 1],
      .operation "distance2" [2, 1]] hr.2 hn' (by decide) "x"
  obtain ⟨q, numerator, divisor, root, hq, hratio, hroot⟩ := hdistance rfl
  obtain ⟨ps, d, hd, hchained, hmultiply, hlater⟩ := hproduct (by decide) (by decide)
  obtain rfl : q = 19 := Except.ok.inj (hq.symm.trans hasked.1)
  obtain ⟨rfl, rfl⟩ : numerator = 16 ∧ divisor = 18 := by
    simpa using (Node.operation.inj (Option.some.inj (hratio.quotient.symm.trans hquotient))).2
  obtain rfl : root = 17 := by
    simpa using (Node.operation.inj (Option.some.inj (hroot.symm.trans hdivisor))).2
  obtain rfl : d = 10 := Except.ok.inj (hd.symm.trans hasked.2)
  obtain ⟨a, b, hab, rfl⟩ := hmultiply rfl
  obtain ⟨rfl, rfl⟩ : 4 = a ∧ 5 = b := by simpa using hab
  exact ⟨hasked.1, hratio, hdivisor, hasked.2, hchained, hlater [] "y"⟩

end Fluxion.Session

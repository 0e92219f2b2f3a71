import Fluxion.Proofs.Graph.Recursion
import Fluxion.Proofs.Session.Soundness

namespace Fluxion.Session

/-- Steps that ask for derivatives of what registers hold, performed one after the other. -/
theorem run_derivatives {s : Session} {held : Nat → NodeId} {requests : List (Nat × String)}
    (hheld : ∀ q ∈ requests, s.node q.1 = .ok (held q.1)) :
    s.run (requests.map fun q => .derivative q.1 q.2) =
      let (g, ds) := s.graph.ask (requests.map fun q => (held q.1, q.2))
      ⟨g, s.registers ++ ds⟩ := by
  induction requests generalizing s with
  | nil => simp [run, Graph.ask]
  | cons q requests ih =>
    obtain ⟨hq, hrest⟩ := List.forall_mem_cons.mp hheld
    generalize hr : s.graph.derivative q.2 (held q.1) = r
    have hfirst : (s.perform (.derivative q.1 q.2)).1 = ⟨r.1, s.registers ++ [r.2]⟩ := by
      rw [perform_derivative hq, hr]
    have hnodes :
        ∀ p ∈ requests, (Session.mk r.1 (s.registers ++ [r.2])).node p.1 = .ok (held p.1) :=
      fun p hp => node_append (hrest p hp) _ _
    rw [List.map_cons, List.map_cons, run, List.foldl_cons, hfirst]
    exact (ih hnodes).trans (by simp [Graph.ask, hr])

/-- Some derivatives asked for after any run, in two orders and each as often as one likes. The
two graphs are the same but for the names of the nodes that were not there before, the derivative
by a variable that one holds of a node is the one that the other holds, and from whatever nodes
they are looked at they look the same. -/
theorem ask_order_after_run (steps : List Step) {qs rs : List (NodeId × String)}
    (hqs : ∀ q ∈ qs, q.1 < (start.run steps).graph.size) (hmem : ∀ q, q ∈ qs ↔ q ∈ rs) :
    let g := (start.run steps).graph
    let (h₁, as) := g.ask qs
    let (h₂, bs) := g.ask rs
    ∃ (f : NodeId → NodeId) (answer : NodeId × String → NodeId), g.Renaming h₁ h₂ f ∧
      as = qs.map answer ∧ bs = rs.map (fun q => f (answer q)) ∧
      (∀ q ∈ qs, answer q < h₁.size) ∧
      ∀ roots : List NodeId, (∀ n ∈ roots, n < h₁.size) →
        h₂.picture (roots.map f) = h₁.picture roots := by
  intro g
  have hs := start_sound.run steps
  have hg : g.Truthful := hs.truthful
  have hrs : ∀ q ∈ rs, q.1 < g.size := fun q hq => hqs q ((hmem q).mpr hq)
  obtain ⟨hadv, hlt⟩ := Graph.ask_advances hg hqs
  have hadv' := (Graph.ask_advances hg hrs).1
  have has := Graph.ask_answers hg hqs
  have hbs := Graph.ask_answers hg hrs
  obtain ⟨f, hf⟩ :=
    (Graph.ask_serves hg hqs).exists_renaming (Graph.ask_serves hg hrs) hg hs.settled hmem
  refine ⟨f, fun q => (g.ask qs).1.derivativeOf q.2 q.1, hf, has, ?_, fun q hq => ?_,
    fun roots hroots => ?_⟩
  · rw [hbs]
    exact List.map_congr_left fun q hq =>
      hf.derivativeOf hg.toWellFormed hadv.keeps hadv'.keeps (hrs q hq)
  · exact hlt _ (by rw [has]; exact List.mem_map_of_mem hq)
  · exact hf.picture_map hadv.truthful.toWellFormed hroots

/-- The quotient of `x` and `y`, whose partial derivatives serve both variables, by `x`
and then by `y`, or the other way. -/
theorem ask_order_quotient :
    let g := (start.run [.var "x", .var "y", .binary .divide (.register 0) (.register 1)]).graph
    let (h₁, as) := g.ask [(6, "x"), (6, "y")]
    let (h₂, bs) := g.ask [(6, "y"), (6, "x"), (6, "y")]
    as = [13, 16] ∧ bs = [13, 16, 13] ∧
      ∃ f, g.Renaming h₁ h₂ f ∧ f 13 = 16 ∧ f 16 = 13 := by
  intro g
  have hsize : g.size = 7 := by cbv
  have has : (g.ask [(6, "x"), (6, "y")]).2 = [13, 16] := by decide +kernel
  have hbs : (g.ask [(6, "y"), (6, "x"), (6, "y")]).2 = [13, 16, 13] := by decide +kernel
  have hlt : ∀ q ∈ [(6, "x"), (6, "y")], q.1 < g.size := by simp [hsize]
  have hmem : ∀ q, q ∈ [(6, "x"), (6, "y")] ↔ q ∈ [(6, "y"), (6, "x"), (6, "y")] := by
    simp [or_comm, or_left_comm]
  obtain ⟨f, answer, hf, has', hbs', -⟩ := ask_order_after_run _ hlt hmem
  obtain ⟨hx, hy⟩ : 13 = answer (6, "x") ∧ 16 = answer (6, "y") := by
    simpa using has.symm.trans has'
  obtain ⟨hy', hx', -⟩ : 13 = f (answer (6, "y")) ∧ 16 = f (answer (6, "x")) ∧ _ := by
    simpa using hbs.symm.trans hbs'
  exact ⟨has, hbs, f, hf, by rw [hx, ← hx'], by rw [hy, ← hy']⟩

/-- Some derivatives worked out by recursion after any run, in any order. The graph is the one that
asking for them leaves, but for the names of the new nodes; it has as many, and knows the same
answers. -/
theorem workOut_after_run (steps : List Step) {qs rs : List (NodeId × String)}
    (hqs : ∀ q ∈ qs, q.1 < (start.run steps).graph.size) (hmem : ∀ q, q ∈ qs ↔ q ∈ rs) :
    let g := (start.run steps).graph
    let (h, ds) := g.ask qs
    let i := rs.foldl (fun i q => i.workOut q.2 q.1) g
    ∃ f, g.Renaming h i f ∧
      (qs.map fun q => i.derivative? q.2 q.1) = ds.map (fun d => some (f d)) ∧
      i.size = h.size := by
  intro g
  have hs := start_sound.run steps
  have hg : g.Truthful := hs.truthful
  have hw := hg.toWellFormed
  have hrs : ∀ q ∈ rs, q.1 < g.size := fun q hq => hqs q ((hmem q).mpr hq)
  have hasked := Graph.ask_serves hg hqs
  have hworked := Graph.foldl_workOut_serves hg hrs
  obtain ⟨f, hf⟩ := hasked.exists_renaming hworked hg hs.settled hmem
  refine ⟨f, hf, ?_, hf.size_eq⟩
  rw [Graph.ask_answers hg hqs, List.map_map]
  apply List.map_congr_left
  intro q hq
  rw [Graph.derivative?_eq_some (hworked.known q ((hmem q).mp hq)),
    hf.derivativeOf hw (hasked.retains hw).keeps (hworked.retains hw).keeps (hqs q hq)]
  rfl

end Fluxion.Session

import Fluxion.Proofs.Graph.Acyclic
import Fluxion.Proofs.Session.Soundness

namespace Fluxion.Session

open Relation

variable {s : Session}

theorem Sound.acyclic_run (hs : s.Sound) (ha : s.graph.Acyclic) (steps : List Step) :
    (s.run steps).graph.Acyclic := by
  apply hs.run_invariant (P := fun t => t.graph.Acyclic)
  · intro t step ht ha
    exact ha.evolves ht.truthful ht.settled (ht.evolves_perform step)
  · exact ha

/-- After any run, no node leads back to itself by operands and by what is remembered, and so none
is led to from its own partial derivatives or derivatives. One more derivative lets no node that is
there lead to another that it did not lead to, but for the shared constants. -/
theorem acyclic_after_run (steps : List Step) :
    let g := (start.run steps).graph
    (∀ n, ¬ TransGen g.Links n n) ∧
      (∀ n m, (g.memo n).Holds m → ¬ ReflTransGen g.Links m n) ∧
      ∀ (name : String) (root n m : Nat), root < g.size → n < g.size → m < g.size →
        (∀ c : Shared, m ≠ c.id) → TransGen (g.derivative name root).1.Links n m →
          TransGen g.Links n m := by
  intro g
  have hs := start_sound.run steps
  have hg : g.Truthful := hs.truthful
  have hacyclic : g.Acyclic := start_sound.acyclic_run Graph.initial_acyclic steps
  refine ⟨hacyclic, fun n m hm hp => hacyclic n (.head' (.inr hm) hp), ?_⟩
  intro name root n m hroot hn hm hshared hp
  have hlt : ∀ q ∈ [(root, name)], q.1 < g.size := List.forall_mem_singleton.mpr hroot
  have hgh : g.Evolves (g.derivative name root).1 := .asked hlt
  obtain ⟨start, hacc⟩ := (Graph.ask_serves hg hlt).account hg.toWellFormed hs.settled
  exact hacc.path_of_path hg hs.settled (hgh.advances hg).truthful
    (hgh.settled hg hs.settled) hn hm hshared hp

/-- A distance remembers a quotient as its derivative, which is divided by a distance over the same
operands and does not lead back to the first one. -/
theorem acyclic_distance :
    let g :=
      (start.run [.var "x", .var "y", .operation "distance2" [0, 1], .derivative 2 "x"]).graph
    (g.memo 6).Holds 15 ∧ ReflTransGen g.Links 15 13 ∧ g.operands 13 = g.operands 6 ∧
      ¬ ReflTransGen g.Links 15 6 := by
  intro g
  have hholds : (g.memo 6).Holds 15 := .inr ⟨"x", by decide +kernel⟩
  have hquotient : g.Links 15 14 := .inl (by decide +kernel)
  have hdivisor : g.Links 14 13 := .inl (by decide +kernel)
  obtain ⟨-, hback, -⟩ := acyclic_after_run
    [.var "x", .var "y", .operation "distance2" [0, 1], .derivative 2 "x"]
  exact ⟨hholds, .head hquotient (.single hdivisor), by decide +kernel, hback 6 15 hholds⟩

end Fluxion.Session

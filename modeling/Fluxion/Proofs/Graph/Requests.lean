import Fluxion.Proofs.Graph.Account

namespace Fluxion.Graph

variable {g h : Graph} {requests : List (NodeId × String)}

/-- The answers to some requests, worked out one after the other, and the graph that holds them. -/
def ask (g : Graph) : List (NodeId × String) → Graph × List NodeId
  | [] => (g, [])
  | (n, name) :: requests =>
    let (g, d) := g.derivative name n
    let (g, ds) := g.ask requests
    (g, d :: ds)

theorem ask_advances (hg : g.Truthful) (hlt : ∀ q ∈ requests, q.1 < g.size) :
    g.Advances (g.ask requests).1 ∧
      ∀ d : Nat, d ∈ (g.ask requests).2 → d < (g.ask requests).1.size := by
  induction requests generalizing g with
  | nil => exact ⟨.refl hg, fun d hd => nomatch hd⟩
  | cons q requests ih =>
    have hq := hlt q List.mem_cons_self
    have ha := derivative_answers hg hq q.2
    obtain ⟨hadv, hds⟩ := ih ha.advances.truthful fun r hr =>
      ha.advances.keeps.lt (hlt r (List.mem_cons_of_mem _ hr))
    refine ⟨ha.advances.trans hadv, fun d hd => ?_⟩
    rcases List.mem_cons.mp hd with rfl | hd
    · exact hadv.keeps.lt (ha.lt hq)
    · exact hds d hd

/-- The derivatives of one node by several variables are requests like any others. -/
theorem derivatives?_eq_ask (g : Graph) (names : List String) (n : NodeId) :
    g.derivatives? names n = g.ask (names.map fun name => (n, name)) := by
  induction names generalizing g with
  | nil => rfl
  | cons name names ih => simp only [derivatives?, List.map_cons, ask, ih]

theorem ask_eq_foldl (g : Graph) (requests : List (NodeId × String)) :
    (g.ask requests).1 = requests.foldl (fun g q => (g.derivative q.2 q.1).1) g := by
  induction requests generalizing g with
  | nil => rfl
  | cons q requests ih => exact ih _

theorem ask_serves (hg : g.Truthful) (hlt : ∀ q ∈ requests, q.1 < g.size) :
    Serves g requests (g.ask requests).1 := by
  rw [ask_eq_foldl]
  exact serves_foldl _ requests (fun hh q _ hq => derivative_serves hh hq q.2) hg hlt

/-- Every answer is the derivative that is known in the end. -/
theorem ask_answers (hg : g.Truthful) (hlt : ∀ q ∈ requests, q.1 < g.size) :
    (g.ask requests).2 = requests.map fun q => (g.ask requests).1.derivativeOf q.2 q.1 := by
  induction requests generalizing g with
  | nil => rfl
  | cons q requests ih =>
    have hq := hlt q List.mem_cons_self
    have ha := derivative_answers hg hq q.2
    have hrest := fun r hr => ha.advances.keeps.lt (hlt r (List.mem_cons_of_mem q hr))
    have hretains :=
      (ask_serves ha.advances.truthful hrest).retains ha.advances.truthful.toWellFormed
    have hfirst := hretains.derivative? (ha.advances.keeps.lt hq) ha.known
    rw [List.map_cons]
    change (g.derivative q.2 q.1).2 :: ((g.derivative q.2 q.1).1.ask requests).2 = _
    rw [ih ha.advances.truthful hrest]
    exact congrArg (· :: _) (derivativeOf_eq hfirst).symm

/-- New nodes over older ones, or derivatives of nodes that are there. -/
inductive Evolves (g : Graph) : Graph → Prop
  | grown {h : Graph} : g.Grown h → Evolves g h
  | asked {requests : List (NodeId × String)} :
      (∀ q ∈ requests, q.1 < g.size) → Evolves g (g.ask requests).1

theorem Truthful.advances (hg : g.Truthful) (hgh : g.Grown h) : g.Advances h := by
  refine ⟨hg.grown hgh, hgh.keeps, fun n name d hn hd => ?_⟩
  rw [← hd]
  exact derivative?_congr hgh.keeps hn (by rw [hgh.memo])

theorem Evolves.advances (hgh : g.Evolves h) (hg : g.Truthful) : g.Advances h := by
  cases hgh with
  | grown hgh => exact hg.advances hgh
  | asked hlt => exact (ask_advances hg hlt).1

theorem Evolves.settled (hgh : g.Evolves h) (hg : g.Truthful) (hs : g.Settled) : h.Settled := by
  cases hgh with
  | grown hgh => exact hs.grown hg.toWellFormed hgh
  | asked hlt => exact (ask_serves hg hlt).settled hg.toWellFormed hs

end Fluxion.Graph

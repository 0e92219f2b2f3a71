import Fluxion.Proofs.Graph.Cost
import Fluxion.Proofs.Graph.Identity
import Fluxion.Proofs.Session.Formed

namespace Fluxion.Session

open Relation

variable {s : Session} {r n : Nat} {name : String} {d : NodeId}

theorem graph_perform_derivative (hr : s.node r = .ok n) (name : String) :
    (s.perform (.derivative r name)).1.graph = (s.graph.derivative name n).1 :=
  congrArg (fun result => result.1.graph) (perform_derivative hr name)

/-- A derivative that was known before a run is answered after it, and nothing is added for it. -/
theorem Sound.derivative_of_known (hs : s.Sound) (hn : n < s.graph.size)
    (hd : s.graph.derivative? name n = some d) (steps : List Step) :
    (s.run steps).graph.derivative name n = ((s.run steps).graph, d) :=
  Graph.derivative_of_known ((hs.advances_run steps).recalls n name d hn hd)

/-- Once a derivative was asked for, those of all nodes below are known. -/
theorem Sound.exists_known_below (hs : s.Sound) (hr : s.node r = .ok n) (name : String) {m : Nat}
    (hb : ReflTransGen s.graph.Uses n m) :
    ∃ d, (s.perform (.derivative r name)).1.graph.derivative? name m = some d := by
  have hn := hs.node_lt hr
  have ha := Graph.derivative_answers hs.truthful hn name
  have hsettled := (hs.perform (.derivative r name)).settled
  rw [graph_perform_derivative hr] at hsettled ⊢
  have hb := (ha.advances.keeps.below hs.truthful.toWellFormed hn).mpr hb
  exact Option.isSome_iff_exists.mp (hsettled.known hb (Option.isSome_of_eq_some ha.known))

/-- After any run, a derivative adds at most three nodes for each operand, and three more,
of each operation at or below its node that has operands and no derivative by the variable
yet, however often that operation is met on the way down. Whatever steps follow, the
derivatives of all nodes below are there. -/
theorem derivative_cost_after_run (steps : List Step) (hr : (start.run steps).node r = .ok n)
    (name : String) :
    let s := start.run steps
    let after := (s.perform (.derivative r name)).1
    s.graph.Keeps after.graph ∧
      after.graph.size ≤
        s.graph.size + ∑ m ∈ s.graph.due name n, (3 * (s.graph.operands m).length + 3) ∧
      ∀ (more : List Step) (q m : Nat), ReflTransGen s.graph.Uses n m →
        (after.run more).node q = .ok m →
        ((after.run more).perform (.derivative q name)).1.graph = (after.run more).graph := by
  intro s after
  have hs : s.Sound := start_sound.run steps
  have hn : n < s.graph.size := hs.node_lt hr
  have hgraph : after.graph = (s.graph.derivative name n).1 := graph_perform_derivative hr name
  have hkeeps : s.graph.Keeps after.graph := by
    rw [hgraph]
    exact (Graph.derivative_answers hs.truthful hn name).advances.keeps
  refine ⟨hkeeps, ?_, fun more q m hb hq => ?_⟩
  · rw [hgraph]
    exact Graph.size_derivative_le hs.truthful hn name
  · obtain ⟨d, hd⟩ := hs.exists_known_below hr name hb
    have hm : m < after.graph.size := hkeeps.lt (Nat.lt_of_le_of_lt (hs.truthful.below_le hb) hn)
    have hafter : after.Sound := hs.perform _
    rw [graph_perform_derivative hq, hafter.derivative_of_known hm hd more]

/-- Of `x` to the fourth power as a square of a square, the two
products are differentiated once each. -/
theorem derivative_cost_fourth_power :
    let s := start.run [.var "x", .binary .multiply (.register 0) (.register 0),
      .binary .multiply (.register 1) (.register 1)]
    let after := (s.perform (.derivative 2 "x")).1
    s.graph.due "x" 6 = {5, 6} ∧ after.graph.size = s.graph.size + 6 ∧
      after.graph.size ≤ s.graph.size + 18 ∧
      (after.perform (.derivative 1 "x")).1.graph = after.graph := by
  intro s after
  have hs : s.Sound := start_sound.run _
  have hr : s.node 2 = .ok 6 := by decide +kernel
  have hq : after.node 1 = .ok 5 := by decide +kernel
  have hoperands : s.graph.operands 5 = [4, 4] ∧ s.graph.operands 6 = [5, 5] ∧
      ∀ m < 5, s.graph.operands m = [] := by decide +kernel
  obtain ⟨hfive, hsix, hleaves⟩ := hoperands
  have huses : ReflTransGen s.graph.Uses 6 5 := .single (by simp [Graph.Uses, hsix])
  have hcases (m : Nat) (hle : m ≤ 6) (hge : ¬ m < 5) : m = 5 ∨ m = 6 := by omega
  have hdue : s.graph.due "x" 6 = {5, 6} := by
    ext m
    rw [Graph.mem_due, Finset.mem_insert, Finset.mem_singleton]
    constructor
    · rintro ⟨hb, hne, -⟩
      exact hcases m (hs.truthful.below_le hb) fun hlt => hne (hleaves m hlt)
    · rintro (rfl | rfl)
      · exact ⟨huses, by simp [hfive], by decide +kernel⟩
      · exact ⟨.refl, by simp [hsix], by decide +kernel⟩
  obtain ⟨-, hsize, hagain⟩ := derivative_cost_after_run _ hr "x"
  refine ⟨hdue, by decide +kernel, ?_, hagain [] 1 5 huses hq⟩
  have hsum : ∑ m ∈ s.graph.due "x" 6, (3 * (s.graph.operands m).length + 3) = 18 := by
    simp [hdue, hfive, hsix]
  rw [← hsum]
  exact hsize

/-- The node that is put into the next register when a derivative is asked for. -/
def asked (s : Session) (r : Nat) (name : String) : Except Failure NodeId :=
  (s.perform (.derivative r name)).1.node s.registers.size

theorem asked_eq (hr : s.node r = .ok n) (name : String) :
    s.asked r name = .ok (s.graph.derivative name n).2 := by
  rw [asked, perform_derivative hr, node_eq_ok]
  simp

/-- What was asked for is known from then on. -/
theorem Sound.known_of_asked (hs : s.Sound) (hr : s.node r = .ok n) (hd : s.asked r name = .ok d)
    (more : List Step) :
    (s.run (.derivative r name :: more)).graph.derivative? name n = some d := by
  have hn := hs.node_lt hr
  have ha := Graph.derivative_answers hs.truthful hn name
  have hadv := (hs.perform (.derivative r name)).advances_run more
  rw [asked_eq hr] at hd
  rw [graph_perform_derivative hr] at hadv
  rw [← Except.ok.inj hd, run_cons]
  exact hadv.recalls n name _ (ha.advances.keeps.lt hn) ha.known

theorem Sound.derives_of_asked (hs : s.Sound) (hr : s.node r = .ok n)
    (hne : s.graph.operands n ≠ []) (hd : s.asked r name = .ok d) (more : List Step) :
    (s.run (.derivative r name :: more)).graph.Derives n name d := by
  have hkeeps := (hs.advances_run (.derivative r name :: more)).keeps
  rw [← hkeeps.operands (hs.node_lt hr)] at hne
  exact (Graph.derives_iff hne).mpr (hs.known_of_asked hr hd more)

/-- A derivative that is known after a run, and was not before it, is a node that was not there
before. -/
theorem Sound.size_le_of_asked (hs : s.Sound) (hf : s.graph.Formed) (hfitting : s.graph.Fitting)
    (hunknown : s.graph.derivative? name n = none) {steps : List Step}
    (hr : (s.run steps).node r = .ok n) (hne : (s.run steps).graph.operands n ≠ [])
    (hd : (s.run steps).asked r name = .ok d) : s.graph.size ≤ d := by
  have hsince : s.graph.Since (s.run (steps ++ [.derivative r name])).graph :=
    hs.graph_invariant hf (fun ht hf hgh hsince => hsince.evolves ht hf hgh) (.refl hfitting) _
  rw [run_append] at hsince
  rcases hsince.derives ((hs.run steps).derives_of_asked hr hne hd []) with hold | hnew
  · rw [(Graph.derives_iff hold.1).mp hold] at hunknown
    cases hunknown
  · exact hnew

theorem distinct_after_run (steps : List Step) : (start.run steps).graph.Distinct :=
  start_sound.graph_invariant Graph.initial_formed (fun ht hf hgh hd => hd.evolves ht hf hgh)
    Graph.initial_distinct steps

/-- Derivatives of operations over operands that are the same node are
of one operation by one variable. -/
theorem eq_of_asked {steps more : List Step} {q m : Nat} {other : String}
    (hr : (start.run steps).node r = .ok n) (hne : (start.run steps).graph.operands n ≠ [])
    (hd : (start.run steps).asked r name = .ok d)
    (hq : ((start.run steps).run (.derivative r name :: more)).node q = .ok m)
    (hne' : ((start.run steps).run (.derivative r name :: more)).graph.operands m ≠ [])
    (hd' : ((start.run steps).run (.derivative r name :: more)).asked q other = .ok d) :
    m = n ∧ other = name := by
  have hs := start_sound.run steps
  have hfirst := hs.derives_of_asked hr hne hd (more ++ [.derivative q other])
  have hsecond := (hs.run (.derivative r name :: more)).derives_of_asked hq hne' hd' []
  have hdistinct :=
    distinct_after_run (steps ++ (.derivative r name :: more ++ [.derivative q other]))
  rw [run_append, run_append] at hdistinct
  rw [← List.cons_append, run_append] at hfirst
  exact hdistinct.unique hsecond hfirst

/-- The node that a derivative is, once it was asked for in any run. Whatever steps follow, it is
the answer for every register that holds the same node. The derivative of an operation over operands
was not there while it was not known, and the derivative of no other such operation or by no other
variable is the same node. The derivative of any other node is zero or one. -/
theorem derivative_identity_after_run (steps : List Step) (hr : (start.run steps).node r = .ok n)
    (name : String) :
    let s := start.run steps
    let after := (s.perform (.derivative r name)).1
    ∃ d, s.asked r name = .ok d ∧
      (∀ (more : List Step) (q : Nat), (after.run more).node q = .ok n →
        (after.run more).asked q name = .ok d) ∧
      (s.graph.operands n ≠ [] →
        (∀ before rest, steps = before ++ rest →
          (start.run before).graph.derivative? name n = none →
          (start.run before).graph.size ≤ d) ∧
        ∀ (more : List Step) (q m : Nat) (other : String), (after.run more).node q = .ok m →
          (after.run more).graph.operands m ≠ [] → (after.run more).asked q other = .ok d →
          m = n ∧ other = name) ∧
      (s.graph.operands n = [] → d = Shared.zero.id ∨ d = Shared.one.id) := by
  intro s after
  have hs : s.Sound := start_sound.run steps
  have hn : n < s.graph.size := hs.node_lt hr
  have hafter (more : List Step) : after.run more = s.run (.derivative r name :: more) :=
    (run_cons ..).symm
  obtain ⟨d, hd⟩ : ∃ d, s.asked r name = .ok d := ⟨_, asked_eq hr name⟩
  refine ⟨d, hd, fun more q hq => ?_, fun hne => ⟨?_, ?_⟩, fun hnil => ?_⟩
  · rw [asked_eq hq, hafter, Graph.derivative_of_known (hs.known_of_asked hr hd more)]
  · rintro before rest rfl hunknown
    have hbefore := start_sound.run before
    simp only [s, run_append] at hr hne hd
    exact hbefore.size_le_of_asked (formed_run Graph.initial_formed before)
      (fitting_after_run before) hunknown
      hr hne hd
  · intro more q m other hq hne' hd'
    rw [hafter] at hq hne' hd'
    exact eq_of_asked hr hne hd hq hne' hd'
  · have hknown := hs.known_of_asked hr hd []
    have hdistinct := distinct_after_run (steps ++ [.derivative r name])
    have hkeeps := (hs.advances_run [.derivative r name]).keeps
    rw [← hkeeps.operands hn] at hnil
    rw [run_append] at hdistinct
    exact hdistinct.shared (hkeeps.lt hn) hnil hknown

/-- One of two equal products, by a variable that neither depends on: the node is new, and neither
its derivative by another such variable nor that of the other product is the same one. -/
theorem derivative_identity_products :
    let s := start.run [.var "x", .var "y", .operation "*" [0, 1], .operation "*" [0, 1]]
    let after := (s.perform (.derivative 2 "u")).1
    s.equal 2 3 = .ok true ∧ ∃ d, s.asked 2 "u" = .ok d ∧ after.asked 2 "u" = .ok d ∧
      s.graph.size ≤ d ∧
      after.asked 2 "v" ≠ .ok d ∧ after.asked 3 "u" ≠ .ok d ∧
      s.asked 0 "u" = .ok Shared.zero.id := by
  intro s after
  have hr : s.node 2 = .ok 6 := by decide +kernel
  have hne : s.graph.operands 6 ≠ [] := by decide +kernel
  obtain ⟨d, hd, hagain, hown, -⟩ := derivative_identity_after_run
    [.var "x", .var "y", .operation "*" [0, 1], .operation "*" [0, 1]] hr "u"
  obtain ⟨hnew, hother⟩ := hown hne
  have hnodes : after.node 2 = .ok 6 ∧ after.node 3 = .ok 7 := by decide +kernel
  have hoperands : after.graph.operands 6 ≠ [] ∧ after.graph.operands 7 ≠ [] := by
    decide +kernel
  refine ⟨by decide +kernel, d, hd, hagain [] 2 hnodes.1, ?_, fun heq => ?_, fun heq => ?_,
    by decide +kernel⟩
  · exact hnew _ [] (List.append_nil _).symm (by decide +kernel)
  · obtain ⟨-, hname⟩ := hother [] 2 6 "v" hnodes.1 hoperands.1 heq
    exact absurd hname (by decide)
  · obtain ⟨hnode, -⟩ := hother [] 3 7 "u" hnodes.2 hoperands.2 heq
    exact absurd hnode (by decide)

end Fluxion.Session

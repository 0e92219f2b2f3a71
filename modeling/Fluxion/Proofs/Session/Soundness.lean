import Fluxion.Session
import Fluxion.Proofs.Graph.Requests
import Fluxion.Proofs.Outcome

namespace Fluxion.Session

variable {s : Session} {g h : Graph} {r n : Nat} {ns : List NodeId} {step : Step}

structure Sound (s : Session) : Prop where
  truthful : s.graph.Truthful
  settled : s.graph.Settled
  held : ∀ n : Nat, n ∈ s.registers → n < s.graph.size

theorem start_sound : start.Sound :=
  ⟨Graph.initial_truthful, Graph.initial_settled, by simp [start]⟩

theorem node_eq_ok : s.node r = .ok n ↔ s.registers[r]? = some n := by
  unfold node
  split
  · rename_i m hm
    simp [hm]
  · rename_i hm
    simp [hm]

/-- Registers that are there keep what they hold. -/
theorem node_append (hr : s.node r = .ok n) (g : Graph) (ns : List NodeId) :
    (Session.mk g (s.registers ++ ns)).node r = .ok n := by
  have hold := node_eq_ok.mp hr
  obtain ⟨hlt, -⟩ := Array.getElem?_eq_some_iff.mp hold
  refine node_eq_ok.mpr ?_
  rw [← Array.getElem?_toList, Array.toList_appendList,
    List.getElem?_append_left (by simpa using hlt), Array.getElem?_toList, hold]

theorem Sound.node_lt (hs : s.Sound) (hn : s.node r = .ok n) : n < s.graph.size :=
  hs.held n (Array.mem_of_getElem? (node_eq_ok.mp hn))

theorem Sound.mapM_node_lt (hs : s.Sound) {rs : List Nat} {ns : List NodeId}
    (hns : rs.mapM s.node = .ok ns) : ∀ n : Nat, n ∈ ns → n < s.graph.size := by
  induction rs generalizing ns with
  | nil =>
    obtain rfl : [] = ns := by simpa [pure, Except.pure] using hns
    simp
  | cons r rs ih =>
    rw [List.mapM_cons] at hns
    obtain ⟨m, hm, hns⟩ := except_bind_eq_ok.mp hns
    obtain ⟨ms, hms, hns⟩ := except_bind_eq_ok.mp hns
    obtain rfl : m :: ms = ns := by simpa [pure, Except.pure] using hns
    intro n hn
    rcases List.mem_cons.mp hn with rfl | hn
    · exact hs.node_lt hm
    · exact ih hms n hn

/-- The nodes that are answered are there, and what was there before was left alone. -/
structure Makes (g : Graph) (r : Graph × List NodeId) : Prop where
  evolves : g.Evolves r.1
  lt : ∀ n : Nat, n ∈ r.2 → n < r.1.size

theorem makes_add {node : Node} (hgh : g.Grown h) (hb : node.Below h.size) :
    Makes g ((h.add node).1, [(h.add node).2]) :=
  ⟨.grown (hgh.add hb), by simp⟩

theorem makes_ask {requests : List (NodeId × String)} (hg : g.Truthful)
    (hlt : ∀ q ∈ requests, q.1 < g.size) : Makes g (g.ask requests) :=
  ⟨.asked hlt, (Graph.ask_advances hg hlt).2⟩

theorem makes_same (hns : ∀ n : Nat, n ∈ ns → n < s.graph.size) :
    Makes s.graph (s.graph, ns) :=
  ⟨.grown .refl, hns⟩

theorem Sound.supply (hs : s.Sound) (hgh : s.graph.Grown g) {a : Operand} {r : Graph × NodeId}
    (ha : s.supply g a = .ok r) : g.Grown r.1 ∧ r.2 < r.1.size := by
  cases a with
  | register i =>
    obtain ⟨n, hn, rfl⟩ := except_map_eq_ok.mp ha
    exact ⟨.refl, hgh.keeps.lt (hs.node_lt hn)⟩
  | number value =>
    obtain rfl := Except.ok.inj ha
    exact ⟨.add .refl trivial, by simp⟩

theorem makes_insert {read : Except ParseError Expr} {r : Graph × List NodeId}
    (he : s.insert read = .ok r) : Makes s.graph r := by
  obtain ⟨e, -, he⟩ := except_bind_eq_ok.mp he
  obtain rfl := Except.ok.inj he
  have hb := Graph.insert_built s.graph e
  exact ⟨.grown hb.grown, List.forall_mem_singleton.mpr hb.lt⟩

theorem Sound.effect (hs : s.Sound) {r : Graph × List NodeId} (he : s.effect step = .ok r) :
    Makes s.graph r := by
  cases step with
  | read _ text => exact makes_insert he
  | readBytes _ bytes => exact makes_insert he
  | reread i form =>
    obtain ⟨e, -, he⟩ := except_bind_eq_ok.mp he
    exact makes_insert he
  | constant value =>
    obtain rfl := Except.ok.inj he
    exact makes_add .refl trivial
  | shared c =>
    obtain rfl := Except.ok.inj he
    exact makes_same (by simpa using hs.truthful.shared_lt c)
  | var name =>
    obtain ⟨v, -, he⟩ := except_bind_eq_ok.mp he
    obtain rfl := Except.ok.inj he
    exact makes_add .refl trivial
  | operation sign is =>
    obtain ⟨ms, hms, he⟩ := except_bind_eq_ok.mp he
    obtain ⟨op, -, he⟩ := except_bind_eq_ok.mp he
    obtain rfl := Except.ok.inj he
    exact makes_add .refl (hs.mapM_node_lt hms)
  | binary op a b =>
    obtain ⟨left, hl, he⟩ := except_bind_eq_ok.mp he
    obtain ⟨right, hr, he⟩ := except_bind_eq_ok.mp he
    obtain rfl := Except.ok.inj he
    obtain ⟨hgl, hm⟩ := hs.supply .refl hl
    obtain ⟨hlr, hn⟩ := hs.supply hgl hr
    have hm := hlr.keeps.lt hm
    exact makes_add (hgl.trans hlr) (by simp [Node.Below, hm, hn])
  | negate i =>
    obtain ⟨m, hm, he⟩ := except_bind_eq_ok.mp he
    obtain rfl := Except.ok.inj he
    exact makes_add .refl (by simpa [Node.Below] using hs.node_lt hm)
  | derivative i name =>
    obtain ⟨m, hm, he⟩ := except_bind_eq_ok.mp he
    obtain rfl := Except.ok.inj he
    have hlt : ∀ q ∈ [(m, name)], q.1 < s.graph.size :=
      List.forall_mem_singleton.mpr (hs.node_lt hm)
    exact makes_ask hs.truthful hlt
  | gradient i =>
    obtain ⟨m, hm, he⟩ := except_bind_eq_ok.mp he
    obtain rfl := Except.ok.inj he
    rw [Graph.gradient, Graph.derivatives?_eq_ask]
    exact makes_ask hs.truthful (List.forall_mem_map.mpr fun _ _ => hs.node_lt hm)
  | operand i j =>
    obtain ⟨m, hm, he⟩ := except_bind_eq_ok.mp he
    obtain rfl := Except.ok.inj he
    refine makes_same fun n hn => ?_
    have hn := List.mem_of_getElem? (Option.mem_toList.mp hn)
    obtain ⟨op, ms, hnode, hn⟩ := Graph.mem_operands.mp hn
    exact hs.truthful.operand_lt_size hnode hn
  | copy i =>
    obtain ⟨m, hm, he⟩ := except_bind_eq_ok.mp he
    obtain rfl := Except.ok.inj he
    exact makes_same (by simpa using hs.node_lt hm)

/-- A step that asks for a derivative answers with the next register, which holds it. -/
theorem perform_derivative (hr : s.node r = .ok n) (name : String) :
    s.perform (.derivative r name) =
      (⟨(s.graph.derivative name n).1, s.registers ++ [(s.graph.derivative name n).2]⟩,
        .ok [s.registers.size]) := by
  simp [perform, effect, hr, bind, Except.bind, pure, Except.pure]

theorem node_perform (hr : s.node r = .ok n) (step : Step) : (s.perform step).1.node r = .ok n := by
  unfold Session.perform
  split
  · exact node_append hr _ _
  · exact hr

theorem node_run (hr : s.node r = .ok n) (steps : List Step) : (s.run steps).node r = .ok n := by
  induction steps generalizing s with
  | nil => exact hr
  | cons step steps ih => exact ih (node_perform hr step)

theorem Sound.perform (hs : s.Sound) (step : Step) : (s.perform step).1.Sound := by
  unfold Session.perform
  split
  · rename_i h ns he
    have hm := hs.effect he
    have hadv := hm.evolves.advances hs.truthful
    refine ⟨hadv.truthful, hm.evolves.settled hs.truthful hs.settled, fun n hn => ?_⟩
    rw [Array.mem_def, Array.toList_appendList, List.mem_append, ← Array.mem_def] at hn
    rcases hn with hn | hn
    · exact hadv.keeps.lt (hs.held n hn)
    · exact hm.lt n hn
  · exact hs

theorem Sound.run (hs : s.Sound) (steps : List Step) : (s.run steps).Sound := by
  induction steps generalizing s with
  | nil => exact hs
  | cons step steps ih => exact ih (hs.perform step)

/-- What every step preserves, a run preserves. -/
theorem Sound.run_invariant {P : Session → Prop} (hs : s.Sound)
    (hperform : ∀ {s : Session} (step : Step), s.Sound → P s → P (s.perform step).1)
    (hP : P s) (steps : List Step) : P (s.run steps) := by
  induction steps generalizing s with
  | nil => exact hP
  | cons step steps ih => exact ih (hs.perform step) (hperform step hs hP)

theorem Sound.evolves_perform (hs : s.Sound) (step : Step) :
    s.graph.Evolves (s.perform step).1.graph := by
  unfold Session.perform
  split
  · rename_i h ns he
    exact (hs.effect he).evolves
  · exact .grown .refl

theorem run_cons (s : Session) (step : Step) (steps : List Step) :
    s.run (step :: steps) = (s.perform step).1.run steps := List.foldl_cons ..

theorem run_append (s : Session) (steps more : List Step) :
    s.run (steps ++ more) = (s.run steps).run more :=
  List.foldl_append

theorem Sound.advances_run (hs : s.Sound) (steps : List Step) :
    s.graph.Advances (s.run steps).graph := by
  apply hs.run_invariant (P := fun t => s.graph.Advances t.graph)
  · intro t step ht hadv
    exact hadv.trans ((ht.evolves_perform step).advances ht.truthful)
  · exact .refl hs.truthful

/-- Asking for a derivative puts it into the next register, whatever was asked for before. -/
theorem Sound.expr_derivative (hs : s.Sound) (hr : s.node r = .ok n) (name : String) :
    (s.perform (.derivative r name)).2 = .ok [s.registers.size] ∧
      (s.perform (.derivative r name)).1.expr s.registers.size =
        .ok ((s.graph.expr n).derivative name) := by
  have hn := hs.node_lt hr
  have ha := Graph.derivative_answers hs.truthful hn name
  rw [perform_derivative hr]
  refine ⟨rfl, except_map_eq_ok.mpr ⟨(s.graph.derivative name n).2, node_eq_ok.mpr ?_, ?_⟩⟩
  · simp
  · exact ha.expr hs.truthful hn

end Fluxion.Session

import Fluxion.Proofs.Graph.Congruence
import Fluxion.Proofs.Session.Sharing

namespace Fluxion.Session

variable {s : Session} {a b c n : Nat}

theorem equal_eq_ok {v : Bool} :
    s.equal a b = .ok v ↔
      ∃ m n, s.node a = .ok m ∧ s.node b = .ok n ∧ s.graph.equal m n = v := by
  simp [equal, except_bind_eq_ok, pure, Except.pure]

theorem Sound.equal_iff (hs : s.Sound) :
    s.equal a b = .ok true ↔
      ∃ m n, s.node a = .ok m ∧ s.node b = .ok n ∧ s.graph.Alike m n := by
  rw [equal_eq_ok]
  refine exists_congr fun m =>
    exists_congr fun n => and_congr_right fun hm => and_congr_right fun _ => ?_
  exact Graph.equal_iff hs.truthful.toWellFormed (hs.node_lt hm)

theorem Sound.recorded_run (hs : s.Sound) (hr : s.graph.Recorded) (steps : List Step) :
    (s.run steps).graph.Recorded := by
  apply hs.run_invariant (P := fun t => t.graph.Recorded)
  · intro t step ht hr
    exact (ht.evolves_perform step).recorded ht.truthful hr
  · exact hr

theorem Sound.equal_self (hs : s.Sound) (ha : s.node a = .ok n) : s.equal a a = .ok true :=
  hs.equal_iff.mpr ⟨n, n, ha, ha, .same n⟩

theorem Sound.equal_symm (hs : s.Sound) (h : s.equal a b = .ok true) : s.equal b a = .ok true := by
  obtain ⟨m, n, hm, hn, hmn⟩ := hs.equal_iff.mp h
  exact hs.equal_iff.mpr ⟨n, m, hn, hm, hmn.symm hs.truthful.toWellFormed⟩

theorem Sound.equal_trans (hs : s.Sound) (hab : s.equal a b = .ok true)
    (hbc : s.equal b c = .ok true) : s.equal a c = .ok true := by
  obtain ⟨k, m, hk, hm, hkm⟩ := hs.equal_iff.mp hab
  obtain ⟨m', n, hm', hn, hmn⟩ := hs.equal_iff.mp hbc
  obtain rfl := Except.ok.inj (hm.symm.trans hm')
  exact hs.equal_iff.mpr ⟨k, n, hk, hn, hkm.trans hmn hs.truthful.toWellFormed⟩

/-- A NaN is compared as a node. -/
theorem Sound.equal_nan (hs : s.Sound) {x : Float}
    (ha : s.content a = .ok (some (.leaf (.constant x)))) (hx : x.isNaN) (b : Nat) :
    s.equal a b = s.same a b := by
  obtain ⟨m, hm, hnode⟩ := except_map_eq_ok.mp ha
  cases hb : s.node b with
  | error e => simp [equal, same, hm, hb, bind, Except.bind]
  | ok n =>
    have hsame : s.graph.equal m n = (m == n) := by
      rw [Bool.eq_iff_iff, Graph.equal_iff hs.truthful.toWellFormed (hs.node_lt hm),
        Graph.alike_nan_iff hnode hx, beq_iff_eq]
    simp [equal, same, hm, hb, hsame, bind, Except.bind]

/-- Without a NaN, what is shared does not matter. -/
theorem Sound.equal_expr (hs : s.Sound) {e f : Expr} (ha : s.expr a = .ok e) (hb : s.expr b = .ok f)
    (he : ∀ l ∈ e.leaves, l.isNaN = false) : s.equal a b = .ok (e.equal f) := by
  obtain ⟨m, hm, rfl⟩ := except_map_eq_ok.mp ha
  obtain ⟨n, hn, rfl⟩ := except_map_eq_ok.mp hb
  have hw := hs.truthful.toWellFormed
  refine equal_eq_ok.mpr ⟨m, n, hm, hn, ?_⟩
  rw [Bool.eq_iff_iff, Graph.equal_iff hw (hs.node_lt hm)]
  exact ⟨fun hmn => hmn.equal_expr hw he,
    Graph.alike_of_equal_expr hw (hs.node_lt hm) (hs.node_lt hn)⟩

theorem Sound.equal_derivative (hs : s.Sound) (hf : s.graph.Formed) (hr : s.graph.Recorded)
    (hab : s.equal a b = .ok true) (name : String) (more : List Step) :
    let t := s.run (.derivative a name :: more)
    (t.perform (.derivative b name)).1.equal s.registers.size t.registers.size = .ok true := by
  intro t
  obtain ⟨m, n, hm, hn, hmn⟩ := hs.equal_iff.mp hab
  have ht : t.Sound := hs.run _
  have hn' : t.node b = .ok n := node_run hn _
  obtain ⟨d, hd⟩ : ∃ d, s.asked a name = .ok d := ⟨_, asked_eq hm name⟩
  obtain ⟨e, he⟩ : ∃ e, t.asked b name = .ok e := ⟨_, asked_eq hn' name⟩
  let after := t.run [.derivative b name]
  have hadv : s.graph.Advances t.graph := hs.advances_run _
  have hadv' : t.graph.Advances after.graph := ht.advances_run _
  have hknown : after.graph.derivative? name m = some d :=
    hadv'.recalls m name d (hadv.keeps.lt (hs.node_lt hm)) (hs.known_of_asked hm hd more)
  have hknown' : after.graph.derivative? name n = some e := ht.known_of_asked hn' he []
  have hde : after.graph.Alike d e := by
    refine (hmn.keeps hs.truthful.toWellFormed (hadv.keeps.trans hadv'.keeps)).derivative
      hadv'.truthful.toWellFormed ?_ ?_ hknown hknown'
    · exact formed_run (formed_run hf _) _
    · exact ht.recorded_run (hs.recorded_run hr _) _
  exact (ht.perform _).equal_iff.mpr ⟨d, e, node_perform (node_run hd more) _, he, hde⟩

/-- After any run, equality is an equivalence of the registers. A NaN equals only what is the same
node as it is. An expression without a NaN equals what has the same shape, the same signs and equal
leaves, whatever nodes they share. Derivatives of equal registers by the same variable are equal,
whatever was worked out before they are asked for and between. -/
theorem equality_after_run (steps : List Step) :
    let s := start.run steps
    (∀ a n, s.node a = .ok n → s.equal a a = .ok true) ∧
      (∀ a b, s.equal a b = .ok true → s.equal b a = .ok true) ∧
      (∀ a b c, s.equal a b = .ok true → s.equal b c = .ok true → s.equal a c = .ok true) ∧
      (∀ a b x, s.content a = .ok (some (.leaf (.constant x))) → x.isNaN →
        s.equal a b = s.same a b) ∧
      (∀ a b e f, s.expr a = .ok e → s.expr b = .ok f →
        (∀ l ∈ e.leaves, l.isNaN = false) →
        s.equal a b = .ok (e.equal f)) ∧
      ∀ a b name more, s.equal a b = .ok true →
        let t := s.run (.derivative a name :: more)
        (t.perform (.derivative b name)).1.equal s.registers.size t.registers.size = .ok true := by
  intro s
  have hs : s.Sound := start_sound.run steps
  have hf : s.graph.Formed := formed_run Graph.initial_formed steps
  have hr : s.graph.Recorded := start_sound.recorded_run Graph.initial_recorded steps
  refine ⟨fun a n => hs.equal_self, fun a b => hs.equal_symm,
    fun a b c => hs.equal_trans, ?_, ?_, ?_⟩
  · intro a b x ha hx
    exact hs.equal_nan ha hx b
  · intro a b e f ha hb he
    exact hs.equal_expr ha hb he
  · intro a b name more hab
    exact hs.equal_derivative hf hr hab name more

/-- Two products of one NaN and `x` are equal, and so are their derivatives; a product of another
NaN and `x` is not equal to them. -/
theorem equality_nan :
    let nan : Float := 0 / 0
    let s := start.run [.constant nan, .var "x", .operation "*" [0, 1], .operation "*" [0, 1],
      .constant nan, .operation "*" [4, 1]]
    let t := (s.perform (.derivative 2 "x")).1
    s.equal 2 3 = .ok true ∧ s.same 2 3 = .ok false ∧ s.equal 0 4 = .ok false ∧
      s.equal 2 5 = .ok false ∧
      (t.perform (.derivative 3 "x")).1.equal 6 7 = .ok true := by
  intro nan s t
  obtain ⟨-, -, -, hnan, -, hderivative⟩ :=
    equality_after_run [.constant nan, .var "x", .operation "*" [0, 1],
      .operation "*" [0, 1], .constant nan, .operation "*" [4, 1]]
  have hequal : s.equal 2 3 = .ok true := by decide +kernel
  have hcontent : s.content 0 = .ok (some (.leaf (.constant nan))) := by decide +kernel
  have hsame : s.same 2 3 = .ok false ∧ s.same 0 4 = .ok false ∧ nan.isNaN := by decide +kernel
  have hsizes : s.registers.size = 6 ∧ t.registers.size = 7 := by decide +kernel
  obtain ⟨htwo, hfour, hx⟩ := hsame
  refine ⟨hequal, htwo, (hnan 0 4 nan hcontent hx).trans hfour, by decide +kernel, ?_⟩
  have hafter :
      (t.perform (.derivative 3 "x")).1.equal s.registers.size t.registers.size = .ok true :=
    hderivative 2 3 "x" [] hequal
  rwa [hsizes.1, hsizes.2] at hafter

end Fluxion.Session

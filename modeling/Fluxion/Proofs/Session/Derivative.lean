import Fluxion.Proofs.Derivative.Mixed
import Fluxion.Proofs.Session.Soundness

namespace Fluxion.Session

/-- After any run, the derivative of what a register holds is the derivative of its tree,
whatever was worked out before on it or on the nodes it shares. It goes into the next register. A
register that is not there is refused. -/
theorem derivative_after_run (steps : List Step) (r : Nat) (name : String) :
    let s := start.run steps
    let (after, answer) := s.perform (.derivative r name)
    answer = (s.node r).map (fun _ => [s.registers.size]) ∧
      after.expr s.registers.size = (s.expr r).map (Expr.differential name) := by
  intro s
  have hs : s.Sound := start_sound.run steps
  cases hr : s.node r with
  | ok n =>
    obtain ⟨hanswer, hafter⟩ := hs.expr_derivative hr name
    refine ⟨hanswer, hafter.trans ?_⟩
    rw [expr, hr, Expr.derivative_eq_differential]
    rfl
  | error e =>
    have he : s.effect (.derivative r name) = .error e := by
      simp [effect, hr, bind, Except.bind]
    have hp : s.perform (.derivative r name) = (s, .error e) := by simp [perform, he]
    have hnext : s.node s.registers.size = .error e := by
      obtain rfl : e = .noRegister := by
        unfold node at hr
        split at hr <;> simp_all
      simp [node]
    rw [hp]
    refine ⟨rfl, ?_⟩
    rw [expr, expr, hr, hnext]
    rfl

/-- In any field, and for any exponential, logarithm and root, the derivative that a session answers
is worth the slope of the expression along the variable. That is zero where no leaf has the
variable. Divisors may be zero: both sides then have the same quotients by zero. -/
theorem eval_derivative_after_run {K : Type} [Field K] (exp ln sqrt : K → K) (p : Point K)
    {steps : List Step} {r : Nat} (name : String) {e : Expr}
    (he : (start.run steps).expr r = .ok e) :
    let (after, answer) := (start.run steps).perform (.derivative r name)
    ∃ n d, answer = .ok [n] ∧ after.expr n = .ok d ∧
      d.eval (.exact exp ln sqrt) p = (e.eval (.dual exp ln sqrt) (p.along name)).slope ∧
      ((∀ v, Leaf.var v ∈ e.leaves → v.name ≠ name) →
        d.eval (.exact exp ln sqrt) p = 0) := by
  have hs := start_sound.run steps
  obtain ⟨n, hn, rfl⟩ := except_map_eq_ok.mp he
  obtain ⟨hanswer, hafter⟩ := hs.expr_derivative hn name
  rw [Expr.derivative_eq_differential] at hafter
  refine ⟨_, _, hanswer, hafter, Expr.eval_differential _, fun hv => ?_⟩
  rw [Expr.eval_differential, Expr.eval_along_slope_eq_zero hv]

/-- The product of `x` and `y` at `x = 3` and `y = 5`, along `x`. -/
theorem eval_derivative_product :
    let s := start.run [.var "x", .var "y", .binary .multiply (.register 0) (.register 1)]
    let xy : Expr := .multiply (.leaf (.var .x)) (.leaf (.var .y))
    s.expr 2 = .ok xy ∧
      let (after, answer) := s.perform (.derivative 2 "x")
      ∃ n d, answer = .ok [n] ∧ after.expr n = .ok d ∧
        d.eval (.exact id id id) (⟨3, 5, 7⟩ : Point ℚ) = 5 := by
  intro s xy
  have he : s.expr 2 = .ok xy := by cbv
  refine ⟨he, ?_⟩
  obtain ⟨n, d, hn, hd, hvalue, -⟩ :=
    eval_derivative_after_run id id id (⟨3, 5, 7⟩ : Point ℚ) "x" he
  refine ⟨n, d, hn, hd, hvalue.trans ?_⟩
  simp [xy, Point.along, Variable.name, Point.get]

/-- The derivative of what a register holds goes into the next one. -/
theorem Sound.expr_perform_derivative {s : Session} (hs : s.Sound) {r : Nat} {e : Expr}
    (he : s.expr r = .ok e) (name : String) :
    let after := (s.perform (.derivative r name)).1
    after.registers.size = s.registers.size + 1 ∧
      after.expr s.registers.size = .ok (e.differential name) := by
  obtain ⟨n, hn, rfl⟩ := except_map_eq_ok.mp he
  refine ⟨?_, ?_⟩
  · rw [perform_derivative hn]
    simp
  · rw [(hs.expr_derivative hn name).2, Expr.derivative_eq_differential]

theorem Sound.expr_derivative_derivative {s : Session} (hs : s.Sound) {r : Nat} {e : Expr}
    (he : s.expr r = .ok e) (first second : String) :
    (s.run [.derivative r first, .derivative s.registers.size second]).expr (s.registers.size + 1) =
      .ok ((e.differential first).differential second) := by
  obtain ⟨hsize, hfirst⟩ := hs.expr_perform_derivative he first
  have hsecond := ((hs.perform (.derivative r first)).expr_perform_derivative hfirst second).2
  rw [hsize] at hsecond
  exact hsecond

/-- In any field, and for any exponential, logarithm and root, the derivatives of an expression by
two variables are worth the same in either order, whatever the sessions did before that answer them.
Divisors may be zero: both have the same quotients by zero. -/
theorem mixed_derivative_after_run {K : Type} [Field K] (exp ln sqrt : K → K) (p : Point K)
    (first second : String) {steps steps' : List Step} {r r' : Nat} {e : Expr}
    (he : (start.run steps).expr r = .ok e) (he' : (start.run steps').expr r' = .ok e) :
    let k := (start.run steps).registers.size
    let k' := (start.run steps').registers.size
    ∃ d d',
      (start.run (steps ++ [.derivative r first, .derivative k second])).expr (k + 1) = .ok d ∧
      (start.run (steps' ++ [.derivative r' second, .derivative k' first])).expr (k' + 1) =
        .ok d' ∧
      d.eval (.exact exp ln sqrt) p = d'.eval (.exact exp ln sqrt) p := by
  intro k k'
  refine ⟨(e.differential first).differential second,
    (e.differential second).differential first, ?_, ?_, e.eval_differential_comm first second⟩
  · rw [run_append]
    exact (start_sound.run steps).expr_derivative_derivative he first second
  · rw [run_append]
    exact (start_sound.run steps').expr_derivative_derivative he' second first

/-- The quotient of `x` and `y`, by one and then by the other. -/
theorem mixed_derivative_quotient :
    let steps := [.var "x", .var "y", .binary .divide (.register 0) (.register 1)]
    (start.run steps).expr 2 = .ok (.divide (.leaf (.var .x)) (.leaf (.var .y))) ∧
      ∃ d d', (start.run (steps ++ [.derivative 2 "x", .derivative 3 "y"])).expr 4 = .ok d ∧
        (start.run (steps ++ [.derivative 2 "y", .derivative 3 "x"])).expr 4 = .ok d' ∧
        d.eval (.exact id id id) (⟨3, 5, 7⟩ : Point ℚ) =
          d'.eval (.exact id id id) ⟨3, 5, 7⟩ := by
  intro steps
  have he : (start.run steps).expr 2 = .ok (.divide (.leaf (.var .x)) (.leaf (.var .y))) := by cbv
  have hsize : (start.run steps).registers.size = 3 := by cbv
  have hmixed := mixed_derivative_after_run id id id (⟨3, 5, 7⟩ : Point ℚ) "x" "y" he he
  rw [hsize] at hmixed
  exact ⟨he, hmixed⟩

end Fluxion.Session

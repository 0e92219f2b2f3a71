import Fluxion.Proofs.Reading.Rendering
import Fluxion.Proofs.Session.Formed

namespace Fluxion.Session

/-- Whatever a register holds is read back from either of its renderings or from none: from
both where its numbers are numbers and its signs can be named. What is read is the expression
itself, to the last bit of its numbers. -/
theorem read_render_after_run (width : Nat) {steps : List Step} {r : Nat} {e : Expr}
    (he : (start.run steps).expr r = .ok e) :
    let reads (form : Notation) := (Reader.mk form width none).read (e.render form)
    ((∃ e', reads .signFirst = .ok e') ↔ ∃ e', reads .signLast = .ok e') ∧
      ((∃ e', reads .signFirst = .ok e') ↔ e.Readable) ∧
      ∀ form e', reads form = .ok e' → e' = e := by
  intro reads
  have hreads (form : Notation) (e' : Expr) : reads form = .ok e' ↔ e.Readable ∧ e' = e :=
    Reading.read_render_eq_ok_iff form width (formed_expr he)
  have hsome (form : Notation) : (∃ e', reads form = .ok e') ↔ e.Readable := by
    constructor
    · rintro ⟨e', h⟩
      exact ((hreads form e').mp h).1
    · intro h
      exact ⟨e, (hreads form e).mpr ⟨h, rfl⟩⟩
  exact ⟨(hsome .signFirst).trans (hsome .signLast).symm, hsome .signFirst,
    fun form e' h => ((hreads form e').mp h).2⟩

/-- A distance is read back, and its derivative, which has a sign that no text can name, is not. -/
theorem read_render_distance :
    let steps := [.operation "sumexp" [], .var "x", .operation "distance2" [0, 1]]
    let reads (form : Notation) (e : Expr) := (Reader.mk form 20 none).read (e.render form)
    ∃ e d, (start.run steps).expr 2 = .ok e ∧ reads .signFirst e = .ok e ∧
      reads .signLast e = .ok e ∧
      (start.run (steps ++ [.derivative 2 "x"])).expr 3 = .ok d ∧
      ¬ ∃ d', reads .signFirst d = .ok d' := by
  intro steps reads
  let a : Expr := .operation (.any .sumexp) []
  let b : Expr := .leaf (.var .x)
  let e : Expr := .operation (.numbered .distance 2) [a, b]
  have he : (start.run steps).expr 2 = .ok e := by cbv
  have hd : (start.run (steps ++ [.derivative 2 "x"])).expr 3 = .ok (e.derivative "x") := by
    obtain ⟨n, hn, hexpr⟩ := except_map_eq_ok.mp he
    obtain ⟨-, hafter⟩ := (start_sound.run steps).expr_derivative hn "x"
    rw [hexpr] at hafter
    have hsize : (start.run steps).registers.size = 3 := by cbv
    rw [hsize] at hafter
    exact hafter
  have hreadable : e.Readable := ⟨by simp [e, a, b], by simp [e, a, b]; decide +kernel⟩
  have hunreadable : ¬ (e.derivative "x").Readable := fun h =>
    (h.signs (.any .distance) (by
      simp [e, a, b, Expr.derivative, Expr.derivatives, Expr.derivativeOf, Operator.numbered,
        Primitive.quotient?, Term.divide, Term.multiply])).2 rfl
  obtain ⟨hsame, hreads, hself⟩ := read_render_after_run 20 he
  obtain ⟨-, hreads', -⟩ := read_render_after_run 20 hd
  have hfirst : reads .signFirst e = .ok e := by
    obtain ⟨e', he'⟩ := hreads.mpr hreadable
    rw [hself _ _ he'] at he'
    exact he'
  have hlast : reads .signLast e = .ok e := by
    obtain ⟨e', he'⟩ := hsame.mp ⟨e, hfirst⟩
    rw [hself _ _ he'] at he'
    exact he'
  exact ⟨e, _, he, hfirst, hlast, hd, fun h => hunreadable (hreads'.mp h)⟩

end Fluxion.Session

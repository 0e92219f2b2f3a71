import Fluxion.Proofs.Derivative.Places
import Fluxion.Proofs.Graph.Formed
import Fluxion.Proofs.Graph.Requests

namespace Fluxion

/-- There is a partial derivative of the sum by each operand of the quotient. -/
theorem Primitive.length_partials_inner {α : Type} {shared : Shared → α} {p inner : Primitive}
    {as : List α} {divisor : Term α} (hq : p.quotient? shared as = some (inner, divisor)) :
    (inner.partials shared as).length = as.length := by
  refine length_partials ?_ (quotient?_inner hq as shared)
  rw [(formed_quotient hq).2]
  rfl

namespace Graph

variable {g h : Graph} {n : Nat} {op : Operator} {ns ps : List NodeId} {k : Task} {ks : List Task}

/-- A task about an operation with as many operands as it takes. It is to work out the partial
derivatives only if the derivatives come from them. -/
structure Fits (g : Graph) (k : Task) : Prop where
  lt : k.owner < g.size
  accepts : ∀ {op : Operator} {ns : List NodeId}, g.nodes[k.owner]? = some (.operation op ns) →
    op.primitive.arity.accepts ns.length
  byPartials : ∀ {n : Nat}, k = .partials n → g.ByPartials n

theorem Keeps.byPartials (hk : g.Keeps h) (hn : g.ByPartials n) : h.ByPartials n := by
  obtain ⟨op, ns, hnode, hrest⟩ := hn
  exact ⟨op, ns, hk hnode, hrest⟩

theorem Fits.keeps (hf : g.Fits k) (hk : g.Keeps h) : h.Fits k where
  lt := hk.lt hf.lt
  accepts hn := hf.accepts (hk.node_of_lt hf.lt hn)
  byPartials hn := hk.byPartials (hf.byPartials hn)

/-- All that an operation of such a graph needs fits. -/
theorem Formed.fits {name : String} (hg : g.Formed) (hk : g.Needs name k.owner k) : g.Fits k := by
  obtain ⟨⟨op, ns, hn⟩, hk⟩ := hk
  refine ⟨lt_size hn, fun hn' => (hg hn').primitive, ?_⟩
  rintro m rfl
  obtain heq | ⟨-, hby⟩ := hk
  · cases heq
  · exact hby

theorem Performs.invariant {P : Graph → Prop} (hp : Performs g ks h) (hw : g.WellFormed)
    (hfits : ∀ k ∈ ks, g.Fits k)
    (hadds : ∀ {g h : Graph} {k : Task}, g.WellFormed → g.Supplies k →
      g.Fits k → g.Adds k h → P g → P h) (hg : P g) : P h := by
  induction hp with
  | nil => exact hg
  | cons _ hk ha hh _ ih =>
    have hfirst := hadds hw hk (hfits _ List.mem_cons_self) ha hg
    exact ih hh (fun l hl => (hfits l (List.mem_cons_of_mem _ hl)).keeps ha.keeps) hfirst

/-- What holds of more nodes, and after one more task, holds of
whatever a session can do to a graph. -/
theorem Evolves.invariant {P : Graph → Prop} (hgh : g.Evolves h) (hg : g.Truthful) (hf : g.Formed)
    (hgrown : ∀ {h : Graph}, g.Grown h → P g → P h)
    (hadds : ∀ {g h : Graph} {k : Task}, g.WellFormed →
      g.Supplies k → g.Fits k → g.Adds k h → P g → P h) (hP : P g) : P h := by
  cases hgh with
  | grown hgh => exact hgrown hgh hP
  | asked hlt =>
    obtain ⟨ks, hks, hneeds⟩ := (ask_serves hg hlt).tasks hg.toWellFormed
    refine hks.invariant hg.toWellFormed (fun k hk => ?_) hadds hP
    obtain ⟨name, -, hk⟩ := hneeds k hk
    exact hf.fits hk

def Fitting (g : Graph) : Prop :=
  ∀ ⦃n : Nat⦄ ⦃ps : List NodeId⦄, g.answer? (.partials n) = some ps →
    g.ByPartials n ∧ ps.length = (g.operands n).length

theorem initial_fitting : initial.Fitting := by
  intro n ps hps
  simp [answer?, memo_initial, Memo.empty] at hps

theorem length_laidAll (first : Nat) (ts : List (Term NodeId)) :
    (laidAll first ts).2.length = ts.length := by
  induction ts generalizing first with
  | nil => rfl
  | cons t ts ih => simp [laidAll, ih]

theorem ByPartials.lt_size (hn : g.ByPartials n) : n < g.size := by
  obtain ⟨op, ns, hnode, -⟩ := hn
  exact Graph.lt_size hnode

theorem Fitting.keeps (hg : g.Fitting) (hgh : g.Keeps h) (hps : g.answer? (.partials n) = some ps) :
    h.ByPartials n ∧ ps.length = (h.operands n).length := by
  obtain ⟨hby, hlength⟩ := hg hps
  rw [hgh.operands hby.lt_size]
  exact ⟨hgh.byPartials hby, hlength⟩

theorem Fitting.grown (hg : g.Fitting) (hgh : g.Grown h) : h.Fitting := fun n _ hps =>
  hg.keeps hgh.keeps ((hgh.answer? (.partials n)).symm.trans hps)

theorem Fitting.adds (hg : g.Fitting) (hk : g.Supplies k) (hfits : g.Fits k) (ha : g.Adds k h) :
    h.Fitting := by
  intro n ps hps
  rcases ha.answer?_cases hps with hold | ⟨rfl, hanswer⟩ | hfirst
  · exact hg.keeps ha.keeps hold
  · have hby := hfits.byPartials rfl
    refine ⟨ha.keeps.byPartials hby, ?_⟩
    obtain ⟨op, ns, hn, -, hq⟩ := hby
    rw [block_partials hn] at hanswer
    rw [← hanswer, operands_eq (ha.keeps hn)]
    exact (length_laidAll _ _).trans (Primitive.length_partials (hfits.accepts hn) hq)
  · obtain ⟨b, hb⟩ := hk
    obtain ⟨_, _, ns, inner, divisor, name, -, -, hne, hq, -, hsum, hmemo⟩ :=
      hb.sum_of_answer ha hfirst (Option.isSome_of_eq_some hps)
    obtain rfl : n = g.size := hfirst
    refine ⟨⟨.any inner, ns, hsum, hne, Primitive.quotient?_inner hq ns Shared.id⟩, ?_⟩
    rw [answer?, hmemo] at hps
    rw [← Option.some.inj hps, operands_eq hsum]
    exact (length_laidAll _ _).trans (Primitive.length_partials_inner hq)

theorem Fitting.evolves (hg : g.Fitting) (ht : g.Truthful) (hf : g.Formed) (hgh : g.Evolves h) :
    h.Fitting :=
  hgh.invariant ht hf (fun hgh hg => hg.grown hgh) (fun _ hk hfits ha hg => hg.adds hk hfits ha) hg

end Graph
end Fluxion

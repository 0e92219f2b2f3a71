import Mathlib
import Fluxion.Graph.Equality
import Fluxion.Proofs.Graph.Growth
import Fluxion.Proofs.Term

namespace Fluxion

namespace Leaf

variable {a b c : Leaf}

def isNaN : Leaf → Bool
  | constant value => value.isNaN
  | var _ => false

theorem equal_symm (h : a.equal b) : b.equal a := by
  cases a <;> cases b <;> simp only [equal, decide_eq_true_eq, Bool.false_eq_true] at h ⊢
  · exact BEq.symm h
  · exact h.symm

theorem equal_trans (hab : a.equal b) (hbc : b.equal c) : a.equal c := by
  cases a <;> cases b <;> simp only [equal, decide_eq_true_eq, Bool.false_eq_true] at hab <;>
    cases c <;> simp only [equal, decide_eq_true_eq, Bool.false_eq_true] at hbc ⊢
  · exact BEq.trans hab hbc
  · exact hab.trans hbc

theorem equal_self_iff : a.equal a ↔ a.isNaN = false := by
  cases a <;> simp [equal, isNaN]

/-- What equals anything is no NaN. -/
theorem isNaN_of_equal (h : a.equal b) : a.isNaN = false :=
  equal_self_iff.mp (equal_trans h (equal_symm h))

theorem derivative_eq_of_equal (name : String) (h : a.equal b) :
    a.derivative name = b.derivative name := by
  cases a <;> cases b <;> simp only [equal, decide_eq_true_eq, Bool.false_eq_true] at h
  · rfl
  · rw [h]

end Leaf

namespace Expr

mutual
/-- Equality of expressions without a look at nodes, number by number. -/
def equal : Expr → Expr → Bool
  | .leaf a, .leaf b => a.equal b
  | .operation o ts, .operation p us => o.sign == p.sign && equalAll ts us
  | _, _ => false

def equalAll : List Expr → List Expr → Bool
  | [], [] => true
  | t :: ts, u :: us => equal t u && equalAll ts us
  | _, _ => false
end

theorem equalAll_iff {ts us : List Expr} :
    equalAll ts us ↔ List.Forall₂ (fun t u => equal t u) ts us := by
  induction ts generalizing us with
  | nil => cases us <;> simp [equalAll]
  | cons t ts ih => cases us <;> simp [equalAll, ih]

theorem equal_operation_iff {o p : Operator} {ts us : List Expr} :
    equal (.operation o ts) (.operation p us) ↔
      o.sign = p.sign ∧ List.Forall₂ (fun t u => equal t u) ts us := by
  rw [equal, Bool.and_eq_true, beq_iff_eq, equalAll_iff]

theorem equal_self {e : Expr} (he : ∀ l ∈ e.leaves, l.isNaN = false) : e.equal e := by
  induction e using Term.induct with
  | onLeaf l => exact Leaf.equal_self_iff.mpr (he l (by simp))
  | onOperation op ts ih =>
    refine equal_operation_iff.mpr
      ⟨rfl, List.forall₂_same.mpr fun t ht => ih t ht fun l hl => he l ?_⟩
    exact Term.mem_leaves_operand ht hl

end Expr

namespace Graph

variable {g h : Graph} {k m n : Nat} {ms ns : List NodeId}

/-- A node is like itself, leaves are like equal leaves, and operations over alike operands are
alike. -/
inductive Alike (g : Graph) : NodeId → NodeId → Prop
  | same (n : NodeId) : Alike g n n
  | leaf {m n : NodeId} {a b : Leaf} :
      g.nodes[m]? = some (.leaf a) → g.nodes[n]? = some (.leaf b) →
      a.equal b → Alike g m n
  | operation {m n : NodeId} {o p : Operator} {ms ns : List NodeId} :
      g.nodes[m]? = some (.operation o ms) → g.nodes[n]? = some (.operation p ns) →
      o.sign = p.sign →
      List.Forall₂ (Alike g) ms ns → Alike g m n

/-- Operands are older, so what holds of alike nodes may be proved from what holds of their
operands. -/
theorem Alike.induct (hg : g.WellFormed) {motive : Nat → Nat → Prop} (same : ∀ n, motive n n)
    (leaf : ∀ {m n : Nat} {a b : Leaf}, g.nodes[m]? = some (.leaf a) →
      g.nodes[n]? = some (.leaf b) → a.equal b → motive m n)
    (operation : ∀ {m n : Nat} {o p : Operator} {ms ns : List NodeId},
      g.nodes[m]? = some (.operation o ms) → g.nodes[n]? = some (.operation p ns) →
      o.sign = p.sign → List.Forall₂ g.Alike ms ns → List.Forall₂ motive ms ns →
      motive m n)
    (hmn : g.Alike m n) : motive m n := by
  induction m using Nat.strongRecOn generalizing n with
  | ind m ih =>
    cases hmn with
    | same => exact same m
    | leaf hm hn hab => exact leaf hm hn hab
    | operation hm hn hs hall =>
      refine operation hm hn hs hall (List.forall₂_iff_zip.mpr ⟨hall.length_eq, fun hz => ?_⟩)
      exact ih _ (hg.operand_lt hm (List.of_mem_zip hz).1) (List.forall₂_zip hall hz)

/-- The depth does not matter once no node is as deep. -/
theorem equalWithin_iff (hg : g.WellFormed) {depth : Nat} (hm : m < depth) :
    g.equalWithin depth m n ↔ g.Alike m n := by
  induction depth generalizing m n with
  | zero => omega
  | succ depth ih =>
    have hall {o : Operator} {ms ns : List NodeId} (hnode : g.nodes[m]? = some (.operation o ms)) :
        (∀ a b, (a, b) ∈ ms.zip ns → g.equalWithin depth a b) ↔
          ∀ a b, (a, b) ∈ ms.zip ns → g.Alike a b := by
      refine forall_congr' fun a => forall_congr' fun b => forall_congr' fun hz => ih ?_
      have hlt := hg.operand_lt hnode (List.of_mem_zip hz).1
      omega
    constructor
    · intro h
      rw [equalWithin, Bool.or_eq_true, beq_iff_eq] at h
      rcases h with rfl | h
      · exact .same m
      · split at h
        · rename_i a b hm hn
          exact .leaf hm hn h
        · rename_i o ms p ns hm hn
          simp only [Bool.and_eq_true, beq_iff_eq, List.all_eq_true, Prod.forall] at h
          obtain ⟨⟨hs, hlength⟩, h⟩ := h
          refine .operation hm hn hs (List.forall₂_iff_zip.mpr ⟨hlength, fun hz => ?_⟩)
          exact (hall hm).mp h _ _ hz
        · cases h
    · intro h
      rw [equalWithin, Bool.or_eq_true, beq_iff_eq]
      cases h with
      | same => exact .inl rfl
      | leaf hm hn hab => simp [hm, hn, hab]
      | operation hm hn hs h =>
        have hzip := (hall hm).mpr fun a b hz => List.forall₂_zip h hz
        simp only [hm, hn, hs, h.length_eq, beq_self_eq_true, Bool.true_and, List.all_eq_true,
          Prod.forall]
        exact .inr hzip

theorem equal_iff (hg : g.WellFormed) (hm : m < g.size) : g.equal m n ↔ g.Alike m n :=
  equalWithin_iff hg hm

theorem Alike.keeps (hmn : g.Alike m n) (hg : g.WellFormed) (hgh : g.Keeps h) : h.Alike m n := by
  refine hmn.induct hg (motive := fun m n => h.Alike m n) .same ?_ ?_
  · intro m n a b hm hn hab
    exact .leaf (hgh hm) (hgh hn) hab
  · intro m n o p ms ns hm hn hs _ hall
    exact .operation (hgh hm) (hgh hn) hs hall

theorem Alike.symm (hmn : g.Alike m n) (hg : g.WellFormed) : g.Alike n m := by
  refine hmn.induct hg (motive := fun m n => g.Alike n m) .same ?_ ?_
  · intro m n a b hm hn hab
    exact .leaf hn hm (Leaf.equal_symm hab)
  · intro m n o p ms ns hm hn hs _ hall
    exact .operation hn hm hs.symm hall.flip

private theorem forall₂_comp {R S T : NodeId → NodeId → Prop} {ks : List NodeId}
    (hRS : ∀ {k m n}, R k m → S m n → T k n) (hks : List.Forall₂ R ks ms)
    (hms : List.Forall₂ S ms ns) : List.Forall₂ T ks ns := by
  induction hks generalizing ns with
  | nil =>
    cases hms
    exact .nil
  | cons hk _ ih =>
    cases hms with
    | cons hm hms => exact .cons (hRS hk hm) (ih hms)

theorem Alike.trans (hkm : g.Alike k m) (hmn : g.Alike m n) (hg : g.WellFormed) : g.Alike k n := by
  revert n
  refine hkm.induct hg (motive := fun k m => ∀ {n}, g.Alike m n → g.Alike k n)
    (fun _ _ h => h) ?_ ?_
  · intro k m a b hk hm hab n hmn
    cases hmn with
    | same => exact .leaf hk hm hab
    | leaf hm' hn hbc =>
      obtain rfl := Node.leaf.inj (Option.some.inj (hm.symm.trans hm'))
      exact .leaf hk hn (Leaf.equal_trans hab hbc)
    | operation hm' => cases hm.symm.trans hm'
  · intro k m o p ks ms hk hm hs hall ih n hmn
    cases hmn with
    | same => exact .operation hk hm hs hall
    | leaf hm' => cases hm.symm.trans hm'
    | operation hm' hn hs' hall' =>
      obtain ⟨rfl, rfl⟩ := Node.operation.inj (Option.some.inj (hm.symm.trans hm'))
      exact .operation hk hn (hs.trans hs') (forall₂_comp (fun hk hm => hk hm) ih hall')

/-- A NaN is like itself only. -/
theorem alike_nan_iff {a : Leaf} (hm : g.nodes[m]? = some (.leaf a)) (ha : a.isNaN) :
    g.Alike m n ↔ m = n := by
  constructor
  · intro h
    cases h with
    | same => rfl
    | leaf hm' hn hab =>
      obtain rfl := Node.leaf.inj (Option.some.inj (hm.symm.trans hm'))
      rw [Leaf.isNaN_of_equal hab] at ha
      cases ha
    | operation hm' => cases hm.symm.trans hm'
  · rintro rfl
    exact .same m

theorem Alike.equal_expr (hmn : g.Alike m n) (hg : g.WellFormed)
    (hnum : ∀ l ∈ (g.expr m).leaves, l.isNaN = false) : (g.expr m).equal (g.expr n) := by
  revert hnum
  refine hmn.induct hg (motive := fun m n => (∀ l ∈ (g.expr m).leaves, l.isNaN = false) →
    (g.expr m).equal (g.expr n)) (fun _ => Expr.equal_self) ?_ ?_
  · intro m n a b hm hn hab _
    rw [hg.expr_leaf hm, hg.expr_leaf hn]
    exact hab
  · intro m n o p ms ns hm hn hs _ ih hnum
    rw [hg.expr_operation hm] at hnum ⊢
    rw [hg.expr_operation hn, Expr.equal_operation_iff, List.forall₂_map_left_iff,
      List.forall₂_map_right_iff]
    refine ⟨hs, List.forall₂_iff_zip.mpr
      ⟨ih.length_eq, fun hz => List.forall₂_zip ih hz fun l hl => hnum l ?_⟩⟩
    exact Term.mem_leaves_operand (List.mem_map_of_mem (List.of_mem_zip hz).1) hl

theorem alike_of_equal_expr (hg : g.WellFormed) (hm : m < g.size) (hn : n < g.size)
    (h : (g.expr m).equal (g.expr n)) : g.Alike m n := by
  induction m using Nat.strongRecOn generalizing n with
  | ind m ih =>
    obtain ⟨a, ha⟩ := exists_node hm
    obtain ⟨b, hb⟩ := exists_node hn
    cases a with
    | leaf a =>
      cases b with
      | leaf b =>
        rw [hg.expr_leaf ha, hg.expr_leaf hb] at h
        exact .leaf ha hb h
      | operation p ns =>
        rw [hg.expr_leaf ha, hg.expr_operation hb] at h
        cases h
    | operation o ms =>
      cases b with
      | leaf b =>
        rw [hg.expr_operation ha, hg.expr_leaf hb] at h
        cases h
      | operation p ns =>
        rw [hg.expr_operation ha, hg.expr_operation hb, Expr.equal_operation_iff,
          List.forall₂_map_left_iff, List.forall₂_map_right_iff] at h
        obtain ⟨hs, hall⟩ := h
        refine .operation ha hb hs (List.forall₂_iff_zip.mpr ⟨hall.length_eq, fun hz => ?_⟩)
        obtain ⟨hi, hj⟩ := List.of_mem_zip hz
        exact ih _ (hg.operand_lt ha hi) (hg.operand_lt_size ha hi) (hg.operand_lt_size hb hj)
          (List.forall₂_zip hall hz)

end Graph
end Fluxion

import Mathlib.Data.List.Forall2
import Fluxion.Proofs.Graph.Growth
import Fluxion.Proofs.Term

namespace Fluxion.Graph

variable {g h : Graph} {α : Type}

/-- A node is an operation wherever the term is one, and `at` relates the leaves to the nodes
there. -/
inductive Represents (g : Graph) (leafAt : α → NodeId → Prop) : Term α → NodeId → Prop
  | leaf {a : α} {n : NodeId} : leafAt a n → Represents g leafAt (.leaf a) n
  | operation {op : Operator} {ts : List (Term α)} {n : NodeId} {ns : List NodeId} :
      g.nodes[n]? = some (.operation op ns) → List.Forall₂ (Represents g leafAt) ts ns →
      Represents g leafAt (.operation op ts) n

theorem Represents.expr {leafAt : α → NodeId → Prop} {value : α → Expr} {t : Term α}
    {n : NodeId} (ht : g.Represents leafAt t n) (hg : g.WellFormed)
    (hv : ∀ a n, leafAt a n → g.expr n = value a) : g.expr n = t.bind value := by
  induction t using Term.induct generalizing n with
  | onLeaf a =>
    cases ht with
    | leaf ha => exact hv a n ha
  | onOperation op ts ih =>
    cases ht with
    | operation hn hts =>
      rw [hg.expr_operation hn, Term.bind_operation]
      refine congrArg _ ?_
      clear hn
      induction hts with
      | nil => rfl
      | cons ht _ ihs =>
        rw [List.map_cons, List.map_cons, ih _ List.mem_cons_self ht]
        exact congrArg _ (ihs (fun t hm => ih t (List.mem_cons_of_mem _ hm)))

theorem Represents.mono {leafAt leafAt' : α → NodeId → Prop} {t : Term α} {n : NodeId}
    (ht : g.Represents leafAt t n) (hk : g.Keeps h) (hl : ∀ a n, leafAt a n → leafAt' a n) :
    h.Represents leafAt' t n := by
  induction t using Term.induct generalizing n with
  | onLeaf a =>
    cases ht with
    | leaf ha => exact .leaf (hl a n ha)
  | onOperation op ts ih =>
    cases ht with
    | operation hn hts =>
      refine .operation (hk hn) ?_
      clear hn
      induction hts with
      | nil => exact .nil
      | cons ht _ ihs =>
        exact .cons (ih _ List.mem_cons_self ht) (ihs fun t hm => ih t (List.mem_cons_of_mem _ hm))

/-- Where a leaf stands once, it stands in every larger graph. -/
def Stays (leafAt : Graph → α → NodeId → Prop) : Prop :=
  ∀ ⦃g h : Graph⦄, g.Keeps h → ∀ a n, leafAt g a n → leafAt h a n

/-- Building a term adds nodes only, and the node it answers represents the term. -/
structure Built (leafAt : Graph → α → NodeId → Prop) (g : Graph) (t : Term α)
    (r : Graph × NodeId) :
    Prop where
  grown : g.Grown r.1
  lt : r.2 < r.1.size
  represents : r.1.Represents (leafAt r.1) t r.2

structure BuiltAll (leafAt : Graph → α → NodeId → Prop) (g : Graph) (ts : List (Term α))
    (r : Graph × List NodeId) : Prop where
  grown : g.Grown r.1
  lt : ∀ n : Nat, n ∈ r.2 → n < r.1.size
  represents : List.Forall₂ (r.1.Represents (leafAt r.1)) ts r.2

section Build

variable {place : Graph → α → Graph × NodeId} {leafAt : Graph → α → NodeId → Prop}

theorem buildAll_built {b : Graph} (stays : Stays leafAt) {ts : List (Term α)}
    (built : ∀ t ∈ ts, ∀ g, b.Grown g → Built leafAt g t (g.build place t))
    (hg : b.Grown g) : BuiltAll leafAt g ts (g.buildAll place ts) := by
  induction ts generalizing g with
  | nil => exact ⟨.refl, by simp [buildAll], .nil⟩
  | cons t ts ih =>
    have hfirst := built t List.mem_cons_self g hg
    have hrest := ih (fun t hm => built t (List.mem_cons_of_mem _ hm)) (hg.trans hfirst.grown)
    refine ⟨hfirst.grown.trans hrest.grown, ?_, .cons ?_ hrest.represents⟩
    · intro n hn
      rcases List.mem_cons.mp hn with rfl | hn
      · exact hrest.grown.keeps.lt hfirst.lt
      · exact hrest.lt n hn
    · exact hfirst.represents.mono hrest.grown.keeps (stays hrest.grown.keeps)

theorem build_built {b : Graph} (stays : Stays leafAt) {t : Term α}
    (placed : ∀ a ∈ t.leaves, ∀ g, b.Grown g → Built leafAt g (.leaf a) (place g a))
    (hg : b.Grown g) : Built leafAt g t (g.build place t) := by
  induction t using Term.induct generalizing g with
  | onLeaf a => exact placed a (by simp) g hg
  | onOperation op ts ih =>
    have hts : BuiltAll leafAt g ts (g.buildAll place ts) := by
      refine buildAll_built stays (fun t ht g hg => ih t ht (fun a ha => placed a ?_) hg) hg
      exact Term.mem_leaves_operand ht ha
    have hb : Node.Below (g.buildAll place ts).1.size (.operation op (g.buildAll place ts).2) :=
      hts.lt
    refine ⟨hts.grown.add hb, by simp [build], .operation (nodes_add_self _ _) ?_⟩
    exact hts.represents.imp fun t n ht => ht.mono (keeps_add _ _) (stays (keeps_add _ _))

end Build

theorem insert_built (g : Graph) (e : Expr) :
    Built (fun g l n => g.nodes[n]? = some (.leaf l)) g e (g.insert e) := by
  refine build_built (b := g) ?_ ?_ .refl
  · intro g h hk l n hn
    exact hk hn
  · intro l _ h _
    exact ⟨.add .refl trivial, by simp, .leaf (nodes_add_self h _)⟩

theorem extend_built {t : Term NodeId} (ht : ∀ n : Nat, n ∈ t.leaves → n < g.size) :
    Built (fun _ => Eq) g t (g.extend t) := by
  refine build_built (b := g) ?_ ?_ .refl
  · intro _ _ _ _ _ he
    exact he
  · intro n hn h hg
    exact ⟨.refl, hg.keeps.lt (ht n hn), .leaf rfl⟩

theorem extendAll_built {ts : List (Term NodeId)}
    (hts : ∀ t ∈ ts, ∀ n : Nat, n ∈ t.leaves → n < g.size) :
    BuiltAll (fun _ => Eq) g ts (g.extendAll ts) := by
  refine buildAll_built (b := g) ?_ ?_ .refl
  · intro _ _ _ _ _ he
    exact he
  · intro t ht h hg
    exact extend_built fun n hn => hg.keeps.lt (hts t ht n hn)

theorem insert_expr (hg : g.WellFormed) (e : Expr) : (g.insert e).1.expr (g.insert e).2 = e := by
  have hb := insert_built g e
  have hw := hb.grown.wellFormed hg
  rw [hb.represents.expr hw fun l n hn => hw.expr_leaf hn]
  exact e.bind_leaf_eq

/-- A node that represents a term over nodes stands for the term with their expressions in place. -/
theorem Represents.expr_eq {t : Term NodeId} {n : NodeId} (hn : h.Represents Eq t n)
    (hg : g.WellFormed) (hh : h.WellFormed) (hk : g.Keeps h)
    (ht : ∀ n : Nat, n ∈ t.leaves → n < g.size) : h.expr n = t.bind g.expr := by
  rw [hn.expr hh fun a n he => congrArg h.expr he.symm]
  exact Term.bind_congr fun n hn => hk.expr hg hh (ht n hn)

theorem extend_expr {t : Term NodeId} (hg : g.WellFormed)
    (ht : ∀ n : Nat, n ∈ t.leaves → n < g.size) :
    (g.extend t).1.expr (g.extend t).2 = t.bind g.expr :=
  have hb := extend_built ht
  hb.represents.expr_eq hg (hb.grown.wellFormed hg) hb.grown.keeps ht

theorem map_expr_represents {ts : List (Term NodeId)} {ns : List NodeId}
    (hns : List.Forall₂ (h.Represents Eq) ts ns) (hg : g.WellFormed) (hh : h.WellFormed)
    (hk : g.Keeps h) (hts : ∀ t ∈ ts, ∀ n : Nat, n ∈ t.leaves → n < g.size) :
    ns.map h.expr = ts.map (·.bind g.expr) := by
  induction hns with
  | nil => rfl
  | cons hn _ ih =>
    rw [List.map_cons, List.map_cons, hn.expr_eq hg hh hk (hts _ List.mem_cons_self),
      ih fun t ht => hts t (List.mem_cons_of_mem _ ht)]

theorem extendAll_exprs {ts : List (Term NodeId)} (hg : g.WellFormed)
    (hts : ∀ t ∈ ts, ∀ n : Nat, n ∈ t.leaves → n < g.size) :
    (g.extendAll ts).2.map (g.extendAll ts).1.expr = ts.map (·.bind g.expr) :=
  have hb := extendAll_built hts
  map_expr_represents hb.represents hg (hb.grown.wellFormed hg) hb.grown.keeps hts

end Fluxion.Graph

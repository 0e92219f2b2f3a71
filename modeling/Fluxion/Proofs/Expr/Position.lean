import Fluxion.Expr
import Fluxion.Proofs.Term

namespace Fluxion.Expr

variable {op : Operator} {es : List Expr} {e : Expr} {i : Nat} {path : List Nat}

/-- The subexpression that some steps lead to. -/
def at? : Expr → List Nat → Option Expr
  | e, [] => some e
  | .leaf _, _ :: _ => none
  | .operation _ es, i :: path => es[i]?.bind (at? · path)

/-- What some steps lead to from the outside of some operands, of which the first step chooses
one. -/
def below? (es : List Expr) : List Nat → Option Expr
  | [] => none
  | i :: path => es[i]?.bind (at? · path)

@[simp] theorem at?_nil (e : Expr) : e.at? [] = some e := by
  cases e <;> rfl

@[simp] theorem at?_leaf_cons (l : Leaf) : at? (.leaf l) (i :: path) = none := rfl

@[simp] theorem at?_operation_cons :
    at? (.operation op es) (i :: path) = below? es (i :: path) := rfl

theorem below?_concat_of_ne (h : i ≠ es.length) :
    below? (es ++ [e]) (i :: path) = below? es (i :: path) := by
  rcases Nat.lt_or_gt_of_ne h with h | h
  · rw [below?, below?, List.getElem?_append_left h]
  · have hle : (es ++ [e]).length ≤ i := by rwa [List.length_append]
    rw [below?, below?, List.getElem?_eq_none hle, List.getElem?_eq_none (Nat.le_of_lt h)]

theorem below?_concat_length : below? (es ++ [e]) (es.length :: path) = e.at? path := by
  simp [below?]

/-- A position below some operands is below one of them. -/
theorem exists_cons_of_below? (h : below? es path = some e) :
    ∃ i steps, path = i :: steps ∧ i < es.length := by
  cases path with
  | nil => cases h
  | cons i path =>
    obtain ⟨d, hd, -⟩ := Option.bind_eq_some_iff.mp h
    exact ⟨i, path, rfl, (List.getElem?_eq_some_iff.mp hd).1⟩

theorem operator_mem_of_at? (h : e.at? path = some (.operation op es)) :
    op ∈ e.operators := by
  induction path generalizing e with
  | nil =>
    obtain rfl := Option.some.inj h
    simp
  | cons i path ih =>
    cases e with
    | leaf l => cases h
    | operation o os =>
      obtain ⟨d, hd, hat⟩ := Option.bind_eq_some_iff.mp h
      exact Term.mem_operators_operand (List.mem_of_getElem? hd) (ih hat)

/-- There is nothing below a leaf. -/
theorem exists_operation_above {above : List Nat} (h : (e.at? path).isSome)
    (habove : above <+: path) (hne : above ≠ path) :
    ∃ op es, e.at? above = some (.operation op es) := by
  induction path generalizing e above with
  | nil => exact absurd (List.prefix_nil.mp habove) hne
  | cons i path ih =>
    cases e with
    | leaf l => cases h
    | operation op es =>
      cases above with
      | nil => exact ⟨op, es, rfl⟩
      | cons j above =>
        obtain ⟨rfl, hsteps⟩ := List.cons_prefix_cons.mp habove
        obtain ⟨node, hnode⟩ := Option.isSome_iff_exists.mp h
        obtain ⟨d, hd, hat⟩ := Option.bind_eq_some_iff.mp hnode
        obtain ⟨o, os, ho⟩ :=
          ih (Option.isSome_of_eq_some hat) hsteps fun heq => hne (congrArg _ heq)
        exact ⟨o, os, Option.bind_eq_some_iff.mpr ⟨d, hd, ho⟩⟩

/-- A node stands before all that is below it. -/
theorem lt_of_above {above : List Nat} (habove : above <+: path) (hne : above ≠ path) :
    above < path :=
  (List.le_iff_lt_or_eq.mp habove.le).resolve_right hne

end Fluxion.Expr

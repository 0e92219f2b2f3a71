import Fluxion.Derivative.Tree
import Fluxion.Proofs.Term

namespace Fluxion

variable {α β : Type} {shared : Shared → α}

namespace Primitive

theorem partials_map (f : α → β) (shared : Shared → α) (p : Primitive) (as : List α) :
    p.partials (fun c => f (shared c)) (as.map f) = (p.partials shared as).map (Term.map f) := by
  rcases as with _ | ⟨a, _ | ⟨b, _ | ⟨c, as⟩⟩⟩ <;> cases p <;>
    simp [partials, Term.divide, Term.negate, Term.multiply, Function.comp_def]

theorem quotient?_map (f : α → β) (shared : Shared → α) (p : Primitive) (as : List α) :
    p.quotient? (fun c => f (shared c)) (as.map f) =
      (p.quotient? shared as).map fun q => (q.1, q.2.map f) := by
  cases p <;> simp [quotient?, Term.multiply, Function.comp_def]

theorem mem_leaves_partials {p : Primitive} {as : List α} {t : Term α} {a : α}
    (ht : t ∈ p.partials shared as) (ha : a ∈ t.leaves) : a ∈ as ∨ ∃ c, a = shared c := by
  unfold partials at ht
  split at ht <;> simp only [List.mem_cons, List.mem_map, List.not_mem_nil, or_false] at ht
  case h_1 | h_2 | h_5 =>
    refine .inr ?_
    rcases ht with rfl | rfl <;> exact ⟨_, by simpa using ha⟩
  case h_3 | h_4 =>
    rcases ht with rfl | rfl <;> simp [Term.divide, Term.negate, Term.multiply] at ha ⊢ <;> grind
  case h_6 | h_7 =>
    obtain ⟨b, hb, rfl⟩ := ht
    simp [Term.multiply] at ha
    grind

theorem mem_leaves_quotient {p inner : Primitive} {as : List α} {divisor : Term α} {a : α}
    (hq : p.quotient? shared as = some (inner, divisor)) (ha : a ∈ divisor.leaves) :
    a ∈ as ∨ ∃ c, a = shared c := by
  unfold quotient? at hq
  split at hq <;> simp only [Option.some.injEq, Prod.mk.injEq, reduceCtorEq] at hq
  all_goals
    obtain ⟨-, rfl⟩ := hq
    simp only [Term.multiply, Term.leaves_operation, List.flatMap_cons, List.flatMap_nil,
      List.flatMap_map, Term.leaves_leaf, List.flatMap_singleton', List.mem_append, List.mem_cons,
      List.not_mem_nil, or_false] at ha
    grind

end Primitive

theorem bind_foldl_add (f : α → Term β) (t : Term α) (ts : List (Term α)) :
    (ts.foldl Term.add t).bind f = (ts.map (Term.bind f)).foldl Term.add (t.bind f) := by
  induction ts generalizing t with
  | nil => rfl
  | cons u ts ih => simp [ih, Term.add]

theorem chainRule_map (f : α → β) (shared : Shared → α) (ps ds : List α) :
    chainRule (fun c => f (shared c)) (ps.map f) (ds.map f) = (chainRule shared ps ds).map f := by
  have hz : List.zipWith (fun p d => Term.multiply (.leaf p) (.leaf d)) (ps.map f) (ds.map f) =
      (List.zipWith (fun p d => Term.multiply (.leaf p) (.leaf d)) ps ds).map (Term.map f) := by
    simp [List.zipWith_map, List.map_zipWith, Term.multiply]
  simp only [chainRule, hz]
  cases List.zipWith (fun p d => Term.multiply (.leaf p) (.leaf d)) ps ds with
  | nil => rfl
  | cons t ts => exact (bind_foldl_add _ t ts).symm

theorem mem_leaves_foldl_add {t : Term α} {ts : List (Term α)} {a : α}
    (ha : a ∈ (ts.foldl Term.add t).leaves) : ∃ u ∈ t :: ts, a ∈ u.leaves := by
  induction ts generalizing t with
  | nil => exact ⟨t, by simp, ha⟩
  | cons u ts ih =>
    obtain ⟨v, hv, hav⟩ := ih ha
    rcases List.mem_cons.mp hv with rfl | hv
    · simp only [Term.add, Term.leaves_operation, List.mem_flatMap, List.mem_cons,
        List.not_mem_nil, or_false] at hav
      obtain ⟨w, rfl | rfl, haw⟩ := hav
      · exact ⟨w, by simp, haw⟩
      · exact ⟨w, by simp, haw⟩
    · exact ⟨v, by simp [hv], hav⟩

theorem mem_leaves_chainRule {ps ds : List α} {a : α}
    (ha : a ∈ (chainRule shared ps ds).leaves) :
    a ∈ ps ∨ a ∈ ds ∨ ∃ c, a = shared c := by
  unfold chainRule at ha
  split at ha
  · exact .inr (.inr ⟨.zero, by simpa using ha⟩)
  · rename_i t ts hz
    obtain ⟨u, hu, hau⟩ := mem_leaves_foldl_add ha
    rw [← hz] at hu
    obtain ⟨i, hi⟩ := List.mem_iff_getElem?.mp hu
    obtain ⟨p, d, hp, hd, rfl⟩ := List.getElem?_zipWith_eq_some.mp hi
    have hp := List.mem_of_getElem? hp
    have hd := List.mem_of_getElem? hd
    simp [Term.multiply] at hau
    grind

namespace Expr

theorem derivatives_eq_map (name : String) (ts : List Expr) :
    derivatives name ts = ts.map (derivative name) := by
  induction ts with
  | nil => rfl
  | cons t ts ih => simp [derivatives, ih]

theorem derivative_operation (name : String) (op : Operator) (ts : List Expr) :
    derivative name (.operation op ts) =
      derivativeOf op.primitive ts (ts.map (derivative name)) := by
  rw [derivative, derivatives_eq_map]

end Expr
end Fluxion

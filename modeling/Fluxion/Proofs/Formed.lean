import Fluxion.Proofs.Derivative.Rules

namespace Fluxion

namespace Operator

/-- The operators that there are: those that a text can name, and the families without a number. -/
def Known (op : Operator) : Prop := op ∈ vocabulary ∨ op = any .sumsq ∨ op = any .distance

instance (op : Operator) : Decidable op.Known := inferInstanceAs (Decidable (_ ∨ _ ∨ _))

/-- An operation of so many operands can be built. -/
structure Takes (op : Operator) (count : Nat) : Prop where
  known : op.Known
  accepts : op.arity.accepts count

theorem known_any (p : Primitive) : (any p).Known := by cases p <;> decide

theorem takes_any {p : Primitive} {count : Nat} (h : p.arity.accepts count) : (any p).Takes count :=
  ⟨known_any p, h⟩

end Operator

namespace Term

variable {α : Type} {a b t : Term α} {ts : List (Term α)}

inductive Formed : Term α → Prop
  | leaf (a : α) : Formed (leaf a)
  | operation {op : Operator} {ts : List (Term α)} :
      op.Takes ts.length → (∀ t ∈ ts, Formed t) → Formed (operation op ts)

theorem formed_any {p : Primitive} (h : p.arity.accepts ts.length) (hts : ∀ t ∈ ts, t.Formed) :
    (operation (.any p) ts).Formed := .operation (Operator.takes_any h) hts

theorem Formed.add (ha : a.Formed) (hb : b.Formed) : (a.add b).Formed :=
  formed_any rfl (by simp [ha, hb])

theorem Formed.multiply (ha : a.Formed) (hb : b.Formed) : (a.multiply b).Formed :=
  formed_any rfl (by simp [ha, hb])

theorem Formed.divide (ha : a.Formed) (hb : b.Formed) : (a.divide b).Formed :=
  formed_any rfl (by simp [ha, hb])

theorem Formed.negate (ha : a.Formed) : a.negate.Formed := formed_any rfl (by simp [ha])

theorem Formed.foldl_add (ht : t.Formed) (hts : ∀ u ∈ ts, u.Formed) :
    (ts.foldl Term.add t).Formed := by
  induction ts generalizing t with
  | nil => exact ht
  | cons u ts ih =>
    exact ih (ht.add (hts u List.mem_cons_self)) fun v hv => hts v (List.mem_cons_of_mem _ hv)

theorem formed_leaves (as : List α) : ∀ t ∈ as.map leaf, t.Formed := by
  intro t ht
  obtain ⟨a, -, rfl⟩ := List.mem_map.mp ht
  exact .leaf a

end Term

variable {α : Type} {shared : Shared → α} {p inner : Primitive} {as : List α}
  {t divisor : Term α}

theorem Primitive.formed_partials (ht : t ∈ p.partials shared as) : t.Formed := by
  unfold partials at ht
  split at ht <;> simp only [List.mem_cons, List.mem_map, List.not_mem_nil, or_false] at ht
  case h_1 | h_2 | h_3 => rcases ht with rfl | rfl <;> exact .leaf _
  case h_4 a b =>
    rcases ht with rfl | rfl
    · exact (Term.Formed.leaf _).divide (.leaf _)
    · exact (Term.Formed.leaf a).negate.divide ((Term.Formed.leaf b).multiply (.leaf b))
  case h_5 =>
    subst t
    exact .leaf _
  case h_6 =>
    obtain ⟨a, -, rfl⟩ := ht
    exact (Term.Formed.leaf _).multiply (.leaf a)
  case h_7 =>
    obtain ⟨a, -, rfl⟩ := ht
    exact Term.formed_any rfl (Term.formed_leaves [a])

theorem Primitive.formed_quotient (hq : p.quotient? shared as = some (inner, divisor)) :
    divisor.Formed ∧ inner.arity = .variadic := by
  unfold quotient? at hq
  split at hq <;> simp only [Option.some.injEq, Prod.mk.injEq, reduceCtorEq] at hq <;>
    obtain ⟨rfl, rfl⟩ := hq
  · exact ⟨(Term.Formed.leaf _).multiply (Term.formed_any rfl (Term.formed_leaves as)), rfl⟩
  · exact ⟨Term.formed_any rfl (Term.formed_leaves as), rfl⟩

theorem formed_chainRule (ps ds : List α) : (chainRule shared ps ds).Formed := by
  have hproducts :
      ∀ t ∈ List.zipWith (fun p d => Term.multiply (.leaf p) (.leaf d)) ps ds, t.Formed := by
    intro t ht
    obtain ⟨i, hi⟩ := List.mem_iff_getElem?.mp ht
    obtain ⟨p, d, -, -, rfl⟩ := List.getElem?_zipWith_eq_some.mp hi
    exact (Term.Formed.leaf p).multiply (.leaf d)
  unfold chainRule
  split
  · exact .leaf _
  · rename_i t ts hz
    rw [hz] at hproducts
    exact (hproducts t List.mem_cons_self).foldl_add fun u hu =>
      hproducts u (List.mem_cons_of_mem _ hu)

end Fluxion

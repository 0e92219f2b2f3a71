import Fluxion.Term

namespace Fluxion.Term

@[simp] theorem bind_leaf (f : α → Term β) (a : α) : (leaf a).bind f = f a := rfl

@[simp] theorem bind_operation (f : α → Term β) (op : Operator) (ts : List (Term α)) :
    (operation op ts).bind f = operation op (ts.map (bind f)) := by
  simp [bind]

theorem bind_leaf_eq (t : Term α) : t.bind leaf = t := by
  induction t using induct with
  | onLeaf a => rfl
  | onOperation op ts ih =>
    have hts : ts.map (bind leaf) = ts := List.map_congr_left ih |>.trans (List.map_id ts)
    rw [bind_operation, hts]

/-- Puts other leaves in the place of the leaves. -/
def map (f : α → β) (t : Term α) : Term β := t.bind fun a => leaf (f a)

@[simp] theorem map_leaf (f : α → β) (a : α) : (leaf a).map f = leaf (f a) := rfl

@[simp] theorem map_operation (f : α → β) (op : Operator) (ts : List (Term α)) :
    (operation op ts).map f = operation op (ts.map (map f)) := by
  simp [map]

@[simp] theorem join_leaf (t : Term α) : (leaf t).join = t := rfl

@[simp] theorem join_operation (op : Operator) (ts : List (Term (Term α))) :
    (operation op ts).join = operation op (ts.map join) := by
  simp [join]

theorem join_map (f : α → Term β) (t : Term α) : (t.map f).join = t.bind f := by
  induction t using induct with
  | onLeaf a => rfl
  | onOperation op ts ih =>
    simp only [map_operation, join_operation, bind_operation, List.map_map]
    exact congrArg _ (List.map_congr_left ih)

def leaves : Term α → List α := fold (fun a => [a]) fun _ => List.flatten

@[simp] theorem leaves_leaf (a : α) : (leaf a).leaves = [a] := rfl

@[simp] theorem leaves_operation (op : Operator) (ts : List (Term α)) :
    (operation op ts).leaves = ts.flatMap leaves := by
  simp [leaves, List.flatMap_def]

theorem mem_leaves_operand {op : Operator} {ts : List (Term α)} {t : Term α} {a : α}
    (ht : t ∈ ts) (ha : a ∈ t.leaves) : a ∈ (operation op ts).leaves := by
  rw [leaves_operation]
  exact List.mem_flatMap.mpr ⟨t, ht, ha⟩

theorem mem_leaves_divide {t u : Term α} {a : α} :
    a ∈ (divide t u).leaves ↔ a ∈ t.leaves ∨ a ∈ u.leaves := by
  simp [divide]

/-- The operators of a term, each as often as it occurs. -/
def operators : Term α → List Operator := fold (fun _ => []) fun op opss => op :: opss.flatten

@[simp] theorem operators_leaf (a : α) : (leaf a).operators = [] := rfl

@[simp] theorem operators_operation (op : Operator) (ts : List (Term α)) :
    (operation op ts).operators = op :: ts.flatMap operators := by
  simp [operators, List.flatMap_def]

theorem mem_operators_operand {op o : Operator} {ts : List (Term α)} {t : Term α} (ht : t ∈ ts)
    (ho : o ∈ t.operators) : o ∈ (operation op ts).operators := by
  rw [operators_operation]
  exact List.mem_cons_of_mem _ (List.mem_flatMap.mpr ⟨t, ht, ho⟩)

theorem bind_congr {f f' : α → Term β} {t : Term α} (hf : ∀ a ∈ t.leaves, f a = f' a) :
    t.bind f = t.bind f' := by
  induction t using induct with
  | onLeaf a => exact hf a (by simp)
  | onOperation op ts ih =>
    simp only [bind_operation]
    refine congrArg _ (List.map_congr_left fun t ht => ih t ht fun a ha => hf a ?_)
    exact mem_leaves_operand ht ha

end Fluxion.Term

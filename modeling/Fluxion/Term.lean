import Fluxion.Operator

namespace Fluxion

inductive Term (α : Type) where
  | leaf (a : α)
  | operation (op : Operator) (operands : List (Term α))

namespace Term

instance [Inhabited α] : Inhabited (Term α) := ⟨leaf default⟩

mutual
/-- The value of a term, from the values of its leaves and what an
operation makes of its operands'. -/
def fold (onLeaf : α → β) (onOperation : Operator → List β → β) : Term α → β
  | leaf a => onLeaf a
  | operation op ts => onOperation op (foldAll onLeaf onOperation ts)

def foldAll (onLeaf : α → β) (onOperation : Operator → List β → β) :
    List (Term α) → List β
  | [] => []
  | t :: ts => fold onLeaf onOperation t :: foldAll onLeaf onOperation ts
end

theorem foldAll_eq_map (f : α → β) (g : Operator → List β → β) (ts : List (Term α)) :
    foldAll f g ts = ts.map (fold f g) := by
  induction ts with
  | nil => rfl
  | cons t ts ih => simp [foldAll, ih]

@[simp] theorem fold_leaf (f : α → β) (g : Operator → List β → β) (a : α) :
    fold f g (leaf a) = f a := rfl

@[simp] theorem fold_operation (f : α → β) (g : Operator → List β → β) (op : Operator)
    (ts : List (Term α)) : fold f g (operation op ts) = g op (ts.map (fold f g)) := by
  simp [fold, foldAll_eq_map]

mutual
/-- What holds of the leaves, and of each operation over operands it holds of, holds of every
term. -/
@[elab_as_elim]
theorem induct {motive : Term α → Prop} (onLeaf : ∀ a, motive (leaf a))
    (onOperation : ∀ op ts, (∀ t ∈ ts, motive t) → motive (operation op ts)) :
    ∀ t, motive t
  | leaf a => onLeaf a
  | operation op ts => onOperation op ts (inductAll onLeaf onOperation ts)

theorem inductAll {motive : Term α → Prop} (onLeaf : ∀ a, motive (leaf a))
    (onOperation : ∀ op ts, (∀ t ∈ ts, motive t) → motive (operation op ts)) :
    ∀ ts : List (Term α), ∀ t ∈ ts, motive t
  | [], _, h => nomatch h
  | t :: _, _, .head _ => induct onLeaf onOperation t
  | _ :: ts, t, .tail _ h => inductAll onLeaf onOperation ts t h
end

/-- Puts a term in the place of each leaf. -/
def bind (f : α → Term β) : Term α → Term β := fold f operation

def join : Term (Term α) → Term α := bind id

def add (a b : Term α) : Term α := operation (.any .add) [a, b]

def subtract (a b : Term α) : Term α := operation (.any .subtract) [a, b]

def multiply (a b : Term α) : Term α := operation (.any .multiply) [a, b]

def divide (a b : Term α) : Term α := operation (.any .divide) [a, b]

def negate (a : Term α) : Term α := operation (.any .negate) [a]

end Term
end Fluxion

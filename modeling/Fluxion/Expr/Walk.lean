import Fluxion.Expr

namespace Fluxion.Expr

/-- A visitor sees a node with its own state, changes the state, and answers whether to go on below
the node. -/
abbrev Visitor (σ : Type) := Expr → σ → Bool × σ

mutual
/-- The visitor's state after the walk. Its answer at a leaf makes no difference. -/
def walk (visit : Visitor σ) (s : σ) : Expr → σ
  | .leaf l => (visit (.leaf l) s).2
  | .operation op ts =>
    match visit (.operation op ts) s with
    | (true, s) => walkAll visit s ts
    | (false, s) => s

def walkAll (visit : Visitor σ) (s : σ) : List Expr → σ
  | [] => s
  | t :: ts => walkAll visit (walk visit s t) ts
end

theorem walkAll_eq_foldl (visit : Visitor σ) (s : σ) (ts : List Expr) :
    walkAll visit s ts = ts.foldl (walk visit) s := by
  induction ts generalizing s with
  | nil => rfl
  | cons t ts ih => exact ih _

/-- What a node is, without what lies below it. -/
inductive Sight
  | leaf (l : Leaf)
  | operation (op : Operator) (operandCount : Nat)
deriving DecidableEq

def sight : Expr → Sight
  | .leaf l => .leaf l
  | .operation op ts => .operation op ts.length

/-- The nodes met on a walk that stays above the operations the test turns down. -/
def sights (descend : Operator → Bool) (e : Expr) : List Sight :=
  (walk (fun node seen =>
    (match node with
      | .leaf _ => true
      | .operation op _ => descend op, node.sight :: seen)) [] e).reverse

end Fluxion.Expr

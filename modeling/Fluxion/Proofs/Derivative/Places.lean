import Fluxion.Proofs.Formed

namespace Fluxion

/-- Numbered operators are families that take any number of operands. -/
theorem Operator.Known.any_or_variadic {op : Operator} (h : op.Known) :
    op = .any op.primitive ∨ op.primitive.arity = .variadic := by
  have hvocabulary : ∀ op ∈ Operator.vocabulary, op = .any op.primitive ∨
      op.primitive.arity = .variadic := by
    decide
  rcases h with h | rfl | rfl
  · exact hvocabulary op h
  · exact .inl rfl
  · exact .inl rfl

/-- What an operator takes, the operation under it takes. -/
theorem Operator.Takes.primitive {op : Operator} {count : Nat} (h : op.Takes count) :
    op.primitive.arity.accepts count := by
  rcases h.known.any_or_variadic with hop | hvariadic
  · have haccepts := h.accepts
    rw [hop] at haccepts
    exact haccepts
  · rw [hvariadic]
    rfl

variable {α K : Type} {A : Arithmetic K} {p : Primitive} {shared : Shared → α}

namespace Primitive

/-- The value of an operation that looks up its operands by their places, if it finds them. -/
def applyAt? (A : Arithmetic K) (p : Primitive) (as : List K) : Option K :=
  match p with
  | add => return A.add (← as[0]?) (← as[1]?)
  | subtract => return A.sub (← as[0]?) (← as[1]?)
  | multiply => return A.mul (← as[0]?) (← as[1]?)
  | divide => return A.div (← as[0]?) (← as[1]?)
  | negate => return A.neg (← as[0]?)
  | sumsq => return A.sumOfSquares as
  | distance => return A.sqrt (A.sumOfSquares as)
  | sumexp => return A.sumOfExponentials as
  | lse => return A.ln (A.sumOfExponentials as)

theorem applyAt?_eq {as : List K} (h : p.arity.accepts as.length) :
    p.applyAt? A as = some (p.apply A as) := by
  rcases as with _ | ⟨a, _ | ⟨b, _ | ⟨c, as⟩⟩⟩ <;> cases p <;>
    first
      | rfl
      | simp [arity, Arity.accepts, Arity.fixed?] at h

/-- The partial derivatives of an operation that looks up its operands
by their places, if it finds them. -/
def partialsAt? (shared : Shared → α) (p : Primitive) (as : List α) : Option (List (Term α)) :=
  match p with
  | add => some [.leaf (shared .one), .leaf (shared .one)]
  | subtract => some [.leaf (shared .one), .leaf (shared .negOne)]
  | multiply => return [.leaf (← as[1]?), .leaf (← as[0]?)]
  | divide => do
    let a ← as[0]?
    let b ← as[1]?
    return [.divide (.leaf (shared .one)) (.leaf b),
      .divide (.negate (.leaf a)) (.multiply (.leaf b) (.leaf b))]
  | negate => some [.leaf (shared .negOne)]
  | sumsq => some (as.map fun a => .multiply (.leaf (shared .two)) (.leaf a))
  | sumexp => some (as.map fun a => .operation (.any sumexp) [.leaf a])
  | distance | lse => some []

theorem partialsAt?_eq {as : List α} (h : p.arity.accepts as.length) :
    p.partialsAt? shared as = some (p.partials shared as) := by
  rcases as with _ | ⟨a, _ | ⟨b, _ | ⟨c, as⟩⟩⟩ <;> cases p <;>
    first
      | rfl
      | simp [arity, Arity.accepts, Arity.fixed?] at h

/-- There is a partial derivative by each operand. -/
theorem length_partials {as : List α} (h : p.arity.accepts as.length)
    (hq : p.quotient? shared as = none) : (p.partials shared as).length = as.length := by
  rcases as with _ | ⟨a, _ | ⟨b, _ | ⟨c, as⟩⟩⟩ <;> cases p <;>
    simp [arity, Arity.accepts, Arity.fixed?, quotient?, partials] at h hq ⊢

end Primitive

def Leaf.evalAt? (A : Arithmetic K) (coordinates : List K) : Leaf → Option K
  | .constant value => some (A.constant value)
  | .var v => coordinates[v.index]?

theorem Leaf.evalAt?_eq (A : Arithmetic K) (point : Point K) (l : Leaf) :
    l.evalAt? A [point.x, point.y, point.z] = some (l.eval A point) := by
  cases l with
  | constant value => rfl
  | var v => cases v <;> rfl

namespace Expr

/-- The value of an expression in which all operands and all variables are looked up by place. -/
def evalAt? (A : Arithmetic K) (coordinates : List K) : Expr → Option K :=
  Term.fold (Leaf.evalAt? A coordinates) fun op values => values.mapM id >>= op.primitive.applyAt? A

/-- No place is looked up that is not there. -/
theorem evalAt?_eq {e : Expr} (he : e.Formed) (point : Point K) :
    e.evalAt? A [point.x, point.y, point.z] = some (e.eval A point) := by
  induction he with
  | leaf l => exact l.evalAt?_eq A point
  | @operation op ts hop _ ih =>
    have hvalues : (ts.map (evalAt? A [point.x, point.y, point.z])).mapM id =
        some (ts.map (eval A point)) := by
      rw [List.map_congr_left ih, List.mapM_map]
      exact List.mapM_pure
    have hlength : op.primitive.arity.accepts (ts.map (eval A point)).length := by
      rw [List.length_map]
      exact hop.primitive
    calc evalAt? A [point.x, point.y, point.z] (.operation op ts)
        = (ts.map (evalAt? A [point.x, point.y, point.z])).mapM id >>= op.primitive.applyAt? A :=
          Term.fold_operation ..
      _ = op.primitive.applyAt? A (ts.map (eval A point)) := by rw [hvalues]; rfl
      _ = some (op.primitive.apply A (ts.map (eval A point))) := Primitive.applyAt?_eq hlength
      _ = some (eval A point (.operation op ts)) := congrArg some (Term.fold_operation ..).symm

end Expr
end Fluxion

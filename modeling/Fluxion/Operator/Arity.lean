import Fluxion.Text.Outline

namespace Fluxion

inductive Arity
  | fixed (count : Nat)
  | variadic
deriving DecidableEq

namespace Arity

def fixed? : Arity → Option Nat
  | fixed count => some count
  | variadic => none

/-- Whether an operand may still follow the first `count`. -/
def hasRoom (a : Arity) (count : Nat) : Bool := a.fixed?.all (count < ·)

/-- Whether `count` operands are a complete list. -/
def accepts (a : Arity) (count : Nat) : Bool := a.fixed?.all (count = ·)

/-- The count a list of `count` operands should have had, where it is not a complete one. -/
def mismatch? (a : Arity) (count : Nat) : Option Nat := a.fixed?.filter (· ≠ count)

theorem hasRoom_iff {a : Arity} {count : Nat} :
    a.hasRoom count ↔ ∀ n, a = fixed n → count < n := by
  cases a <;> simp [hasRoom, fixed?]

theorem accepts_iff {a : Arity} {count : Nat} :
    a.accepts count ↔ ∀ n, a = fixed n → count = n := by
  cases a <;> simp [accepts, fixed?]

theorem mismatch?_eq_some_iff {a : Arity} {count expected : Nat} :
    a.mismatch? count = some expected ↔ a = fixed expected ∧ expected ≠ count := by
  cases a with
  | fixed n =>
    simp only [mismatch?, fixed?, Option.filter_eq_some_iff, Option.some.injEq, fixed.injEq,
      decide_eq_true_eq]
  | variadic => simp [mismatch?, fixed?]

theorem mismatch?_eq_none_iff {a : Arity} {count : Nat} :
    a.mismatch? count = none ↔ a.accepts count := by
  cases a with
  | fixed n => simp [mismatch?, accepts, fixed?, Option.filter_eq_none_iff, eq_comm (a := n)]
  | variadic => simp [mismatch?, accepts, fixed?]

def text : Arity → String
  | fixed count => toString count
  | variadic => "any"

def outline : Arity → Outline
  | fixed count => .call "Fixed" (.atom (toString count))
  | variadic => .atom "Variadic"

end Arity
end Fluxion

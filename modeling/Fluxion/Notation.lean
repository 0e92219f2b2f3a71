namespace Fluxion

/-- Where an operation's sign stands among its operands. -/
inductive Notation
  | signFirst
  | signLast
deriving DecidableEq

namespace Notation

def all : List Notation := [signFirst, signLast]

def name : Notation → String
  | signFirst => "prefix"
  | signLast => "postfix"

def ofName? (name : String) : Option Notation := all.find? (·.name == name)

@[simp] theorem ofName?_name (n : Notation) : ofName? n.name = some n := by cases n <;> rfl

end Notation
end Fluxion

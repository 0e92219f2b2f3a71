namespace Fluxion

inductive Variable
  | x
  | y
  | z
deriving DecidableEq

namespace Variable

def all : List Variable := [x, y, z]

def index : Variable → Nat
  | x => 0
  | y => 1
  | z => 2

def name : Variable → String
  | x => "x"
  | y => "y"
  | z => "z"

def ofName? (name : String) : Option Variable := all.find? (·.name == name)

theorem index_lt (v : Variable) : v.index < all.length := by cases v <;> decide

@[simp] theorem ofName?_name (v : Variable) : ofName? v.name = some v := by cases v <;> rfl

end Variable

structure Point (K : Type) where
  x : K
  y : K
  z : K

def Point.get (p : Point K) : Variable → K
  | .x => p.x
  | .y => p.y
  | .z => p.z

end Fluxion

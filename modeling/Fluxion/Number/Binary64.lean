namespace Fluxion

/-- The quotient rounded to the nearest whole number; a half goes to the even neighbour. -/
def divHalfEven (n d : Nat) : Nat :=
  if d < 2 * (n % d) ∨ d = 2 * (n % d) ∧ n / d % 2 = 1 then n / d + 1 else n / d

namespace Binary64

/-- The pattern of infinity. Every smaller one is a finite size, every greater one is no number. -/
def infinite : Nat := 2047 <<< 52

/-- A finite size counted in units of `2 ^ -1074`, the least positive one. -/
def units (pattern : Nat) : Nat :=
  if pattern < 1 <<< 52 then pattern else (1 <<< 52 + pattern % 1 <<< 52) <<< (pattern >>> 52 - 1)

/-- The pattern nearest to `n / d` units. Neighbouring sizes at least `2 ^ 53` units large are
`2 ^ shift` units apart; a carry out of the significand lands in the exponent, and one out of the
exponent on infinity. -/
def nearest (n d : Nat) : Nat :=
  let shift := (n / d).log2 - 52
  min infinite (shift <<< 52 + divHalfEven n (d <<< shift))

def isNegative (x : Float) : Bool := 1 <<< 63 ≤ x.toBits.toNat

def size (x : Float) : Nat := x.toBits.toNat % 1 <<< 63

def ofSize (negative : Bool) (size : Nat) : Float :=
  Float.ofBits (UInt64.ofNat (if negative then 1 <<< 63 + size else size))

end Binary64
end Fluxion

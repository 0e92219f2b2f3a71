import Fluxion.Number.Binary64

namespace Fluxion

/-- The value `digits * 10 ^ exponent`. -/
structure Decimal where
  digits : Nat
  exponent : Int
deriving DecidableEq

namespace Decimal

/-- The nearest binary64 size. Exponents past 310 exceed every finite size, and below the other
limit the value is less than half a unit, so no huge power is ever computed. -/
def nearest (d : Decimal) : Nat :=
  if d.digits = 0 then 0
  else if 310 < d.exponent then Binary64.infinite
  else if d.exponent < -(330 + d.digits.log2 : Int) then 0
  else Binary64.nearest ((d.digits * Nat.pow 10 d.exponent.toNat) <<< 1074)
    (Nat.pow 10 (-d.exponent).toNat)

/-- The value of a finite size, to its last digit. -/
def exact (size : Nat) : Decimal := ⟨Binary64.units size * Nat.pow 5 1074, -1074⟩

/-- The decimal that leaves out the last `dropped` places of a finite size, `scaled / 2 ^ 1074`
places of `10 ^ -341`, if one of the two next to the size rounds back to it. Of two that do the
nearer is chosen, and the larger when the size lies halfway. -/
def without? (size scaled dropped : Nat) : Option Decimal :=
  let step := Nat.pow 10 dropped <<< 1074
  let lower := scaled / step
  let below : Decimal := ⟨lower, dropped - 341⟩
  let above : Decimal := ⟨lower + 1, dropped - 341⟩
  let ordered := if (2 * lower + 1) * step ≤ 2 * scaled then [above, below] else [below, above]
  ordered.find? (·.nearest == size)

/-- The fewest digits that round back to a finite size. In places of `10 ^ -341` every positive size
has more than seventeen digits in front of the point. -/
def shortest (size : Nat) : Decimal :=
  let scaled := Binary64.units size * Nat.pow 10 341
  let length := (Nat.toDigits 10 (scaled >>> 1074)).length
  ((List.range' 1 17).findSome? fun count => without? size scaled (length - count)).getD
    (exact size)

end Decimal
end Fluxion

import Fluxion.Number.Decimal

namespace Fluxion

/-- The digits of a value `0.d₁d₂… * 10 ^ point`. -/
structure Places where
  digits : List Char
  point : Int

namespace Places

def ofDecimal (d : Decimal) : Places :=
  let written := Nat.toDigits 10 d.digits
  ⟨(written.reverse.dropWhile (· == '0')).reverse, d.exponent + written.length⟩

def isWhole (p : Places) : Bool := p.digits.length ≤ p.point

def positional (p : Places) : List Char :=
  if p.point ≤ 0 then '0' :: '.' :: (List.replicate (-p.point).toNat '0' ++ p.digits)
  else if p.isWhole then p.digits ++ List.replicate (p.point.toNat - p.digits.length) '0'
  else p.digits.take p.point.toNat ++ '.' :: p.digits.drop p.point.toNat

def scientific (p : Places) : List Char :=
  p.digits.take 1 ++ (if p.digits.length ≤ 1 then [] else '.' :: p.digits.drop 1) ++
    'e' :: (toString (p.point - 1)).toList

end Places

/-- How numbers are set: what follows the digits of a whole number, and between which powers of ten
in `0.d₁d₂… * 10 ^ point` there is no exponent; `none` is no limit. -/
structure Layout where
  wholeMark : List Char
  greatest : Option Int
  least : Option Int

namespace Layout

/-- Numbers inside an expression have no exponent and nothing after a whole number. -/
def plain : Layout := ⟨[], none, none⟩

/-- Numbers in an outline show that they are no integers, and from `10 ^ 16` up or below
`10 ^ -4` they take an exponent. -/
def marked : Layout := ⟨['.', '0'], some 16, some (-3)⟩

def isPositional (l : Layout) (p : Places) : Bool :=
  l.greatest.all (p.point ≤ ·) && l.least.all (· ≤ p.point)

/-- A number without its sign. -/
def sizeChars (l : Layout) (size : Nat) : List Char :=
  if size = 0 then '0' :: l.wholeMark
  else if Binary64.infinite < size then ['N', 'a', 'N']
  else if Binary64.infinite = size then ['i', 'n', 'f']
  else
    let p := Places.ofDecimal (Decimal.shortest size)
    if l.isPositional p then p.positional ++ (if p.isWhole then l.wholeMark else [])
    else p.scientific

def chars (l : Layout) (x : Float) : List Char :=
  let size := Binary64.size x
  if Binary64.isNegative x && size ≤ Binary64.infinite then '-' :: l.sizeChars size
  else l.sizeChars size

def text (l : Layout) (x : Float) : String := String.ofList (l.chars x)

end Layout
end Fluxion

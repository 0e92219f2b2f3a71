import Fluxion.Number.Decimal

namespace Fluxion.Numeral

/-- Splits off a sign; `true` is minus. -/
def signed : List Char → Bool × List Char
  | '-' :: cs => (true, cs)
  | '+' :: cs => (false, cs)
  | cs => (false, cs)

def whole? (cs : List Char) : Option Nat :=
  if cs ≠ [] ∧ cs.all Char.isDigit then some (Nat.ofDigitChars 10 cs 0) else none

/-- What may follow the last mantissa digit. -/
def exponent? : List Char → Option Int
  | [] => some 0
  | c :: cs =>
    if c = 'e' ∨ c = 'E' then
      (whole? (signed cs).2).map fun n => if (signed cs).1 then -(n : Int) else n
    else none

/-- Digits behind a point, if there is one, and the rest. -/
def fraction : List Char → List Char × List Char
  | '.' :: cs => (cs.takeWhile Char.isDigit, cs.dropWhile Char.isDigit)
  | cs => ([], cs)

def decimal? (cs : List Char) : Option Decimal :=
  let front := cs.takeWhile Char.isDigit
  let (back, rest) := fraction (cs.dropWhile Char.isDigit)
  if front ++ back = [] then none
  else (exponent? rest).map fun e => ⟨Nat.ofDigitChars 10 (front ++ back) 0, e - back.length⟩

def size? (cs : List Char) : Option Nat :=
  if cs.map Char.toLower ∈ ["inf".toList, "infinity".toList] then some Binary64.infinite
  else (decimal? cs).map Decimal.nearest

/-- The number a text spells, correctly rounded. No text spells a number that is not one. -/
def read? (cs : List Char) : Option Float :=
  (size? (signed cs).2).map (Binary64.ofSize (signed cs).1)

end Fluxion.Numeral

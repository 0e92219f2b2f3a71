namespace Fluxion.Utf8

inductive Piece
  | char (c : Char)
  | illFormed
deriving DecidableEq

/-- Between two characters, or inside one: the bits so far, how many bytes are missing, and
the range the next one must lie in. -/
inductive State
  | between
  | inside (value missing low high : Nat)
deriving DecidableEq

/-- A byte that starts a character, or that can start none. The ranges of second bytes leave out
overlong forms, surrogates and values past the last code point. -/
def lead (byte : Nat) : State × List Piece :=
  if byte < 0x80 then (.between, [.char (Char.ofNat byte)])
  else if byte < 0xC2 then (.between, [.illFormed])
  else if byte < 0xE0 then (.inside (byte - 0xC0) 1 0x80 0xBF, [])
  else if byte = 0xE0 then (.inside 0 2 0xA0 0xBF, [])
  else if byte = 0xED then (.inside 0xD 2 0x80 0x9F, [])
  else if byte < 0xF0 then (.inside (byte - 0xE0) 2 0x80 0xBF, [])
  else if byte = 0xF0 then (.inside 0 3 0x90 0xBF, [])
  else if byte < 0xF4 then (.inside (byte - 0xF0) 3 0x80 0xBF, [])
  else if byte = 0xF4 then (.inside 4 3 0x80 0x8F, [])
  else (.between, [.illFormed])

def step (byte : Nat) : State → State × List Piece
  | .between => lead byte
  | .inside value missing low high =>
    if low ≤ byte ∧ byte ≤ high then
      let value := value * 64 + (byte - 0x80)
      if missing ≤ 1 then (.between, [.char (Char.ofNat value)])
      else (.inside value (missing - 1) 0x80 0xBF, [])
    else ((lead byte).1, .illFormed :: (lead byte).2)

def piecesFrom : State → List UInt8 → List Piece
  | .between, [] => []
  | .inside .., [] => [.illFormed]
  | s, b :: bs => (step b.toNat s).2 ++ piecesFrom (step b.toNat s).1 bs

/-- A piece is as long as it can be while it still starts some well-formed character, so a byte that
breaks a character off is read afresh. -/
def pieces : List UInt8 → List Piece := piecesFrom .between

def Piece.char? : Piece → Option Char
  | .char c => some c
  | .illFormed => none

/-- Ill-formed pieces show as U+FFFD. -/
def Piece.shown (p : Piece) : Char := p.char?.getD '\uFFFD'

/-- The characters the bytes spell, if every piece is one. -/
def decode? (bytes : List UInt8) : Option (List Char) := (pieces bytes).mapM Piece.char?

/-- All pieces, with a stand-in for the ill-formed ones. -/
def decodeLossy (bytes : List UInt8) : List Char := (pieces bytes).map Piece.shown

/-- How many characters stand before the first ill-formed piece. -/
def soundLength (bytes : List UInt8) : Nat := ((pieces bytes).takeWhile (·.char?.isSome)).length

end Fluxion.Utf8

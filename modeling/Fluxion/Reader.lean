import Fluxion.Notation
import Fluxion.Reading.SignFirst
import Fluxion.Reading.SignLast
import Fluxion.Text.Utf8

namespace Fluxion

structure Reader where
  form : Notation := .signFirst
  /-- Characters shown on each side of an error. -/
  width : Nat := 20
  maxDepth : Option Nat := none

namespace Reader

def readChars (r : Reader) (source : List Char) : Except ParseError Expr :=
  let read :=
    match r.form with
    | .signFirst => Reading.SignFirst.grammar.read r.maxDepth source
    | .signLast => Reading.SignLast.grammar.read r.maxDepth source
  read.mapError (·.within source r.width)

def read (r : Reader) (text : String) : Except ParseError Expr := r.readChars text.toList

/-- Bytes that are no UTF-8 text are refused where the first of them stands. -/
def readBytes (r : Reader) (bytes : List UInt8) : Except ParseError Expr :=
  match Utf8.decode? bytes with
  | some source => r.readChars source
  | none =>
    .error
      (Fault.within ⟨.notText, Utf8.soundLength bytes + 1⟩ (Utf8.decodeLossy bytes) r.width)

def evaluate (r : Reader) (text : String) (p : Point Float) : Except ParseError Float :=
  (r.read text).map (Expr.eval .binary64 p)

end Reader
end Fluxion

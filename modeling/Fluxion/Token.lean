import Fluxion.Text.Blank

namespace Fluxion

inductive Lexeme
  | opening
  | closing
  | word (chars : List Char)
deriving DecidableEq

def Lexeme.chars : Lexeme → List Char
  | opening => ['(']
  | closing => [')']
  | word chars => chars

/-- A lexeme and the position of its first character, counted from one. -/
structure Token where
  lexeme : Lexeme
  position : Nat
deriving DecidableEq

namespace Token

def text (t : Token) : String := String.ofList t.lexeme.chars

/-- Puts a character in front of the tokens of what follows it. It joins a word that starts right
behind it. -/
def placeBefore (c : Char) (position : Nat) (rest : List Token) : List Token :=
  if isBlank c then rest
  else if c = '(' then ⟨.opening, position⟩ :: rest
  else if c = ')' then ⟨.closing, position⟩ :: rest
  else
    match rest with
    | ⟨.word cs, next⟩ :: others =>
      if next = position + 1 then ⟨.word (c :: cs), position⟩ :: others
      else ⟨.word [c], position⟩ :: rest
    | _ => ⟨.word [c], position⟩ :: rest

def scanFrom (position : Nat) : List Char → List Token
  | [] => []
  | c :: cs => placeBefore c position (scanFrom (position + 1) cs)

/-- Each parenthesis is a token, and so is each longest run of other characters that are not
blank. -/
def scan (source : List Char) : List Token := scanFrom 1 source

end Token
end Fluxion

namespace Fluxion

/-- What stands just before a position, and what starts at it. -/
structure Excerpt where
  before : String
  after : String
deriving DecidableEq

namespace Excerpt

/-- Up to `width` characters on each side of a position. Positions
count from one; zero acts as one. -/
def around (source : List Char) (position width : Nat) : Excerpt :=
  let start := position - 1
  ⟨String.ofList ((source.take start).drop (start - width)),
    String.ofList ((source.drop start).take width)⟩

def text (e : Excerpt) : String := e.before ++ " HERE -->" ++ e.after

end Excerpt
end Fluxion

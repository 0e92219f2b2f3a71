namespace Fluxion

/-- A value as named, nested parts. An open record leaves some of its fields out and says so. -/
inductive Outline
  | atom (text : String)
  | quoted (text : String)
  | call (name : String) (argument : Outline)
  | record (name : String) (fields : List (String × Outline)) (isOpen : Bool)
  | items (entries : List Outline)

namespace Outline

mutual
def line : Outline → String
  | atom text => text
  | quoted text => "\"" ++ text ++ "\""
  | call name argument => name ++ "(" ++ line argument ++ ")"
  | record name fields isOpen =>
    let parts := fieldLines fields ++ if isOpen then [".."] else []
    name ++ " \x7b " ++ String.intercalate ", " parts ++ " \x7d"
  | items entries => "[" ++ String.intercalate ", " (entryLines entries) ++ "]"

def fieldLines : List (String × Outline) → List String
  | [] => []
  | (name, value) :: fields => (name ++ ": " ++ line value) :: fieldLines fields

def entryLines : List Outline → List String
  | [] => []
  | entry :: entries => line entry :: entryLines entries
end

def indent (lines : List String) : List String := lines.map ("    " ++ ·)

def onFirst (f : String → String) : List String → List String
  | [] => []
  | line :: lines => f line :: lines

def onLast (f : String → String) : List String → List String
  | [] => []
  | [line] => [f line]
  | line :: lines => line :: onLast f lines

/-- A part of its own, indented and closed by a comma. -/
def part (lines : List String) : List String := indent (onLast (· ++ ",") lines)

mutual
def lines : Outline → List String
  | atom text => [text]
  | quoted text => ["\"" ++ text ++ "\""]
  | call name argument => (name ++ "(") :: part (lines argument) ++ [")"]
  | record name fields isOpen =>
    (name ++ " \x7b") :: fieldParts fields ++ (if isOpen then indent [".."] else []) ++ ["\x7d"]
  | items [] => ["[]"]
  | items (entry :: entries) => "[" :: part (lines entry) ++ entryParts entries ++ ["]"]

def fieldParts : List (String × Outline) → List String
  | [] => []
  | (name, value) :: fields =>
    part (onFirst ((name ++ ": ") ++ ·) (lines value)) ++ fieldParts fields

def entryParts : List Outline → List String
  | [] => []
  | entry :: entries => part (lines entry) ++ entryParts entries
end

def block (o : Outline) : String := String.intercalate "\n" (lines o)

end Outline
end Fluxion

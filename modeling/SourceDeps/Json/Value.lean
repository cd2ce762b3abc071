import SourceDeps.Json.Quoted

namespace SourceDeps

/-- A JSON value. Members keep their order. -/
inductive Json where
  | null
  | boolean (b : Bool)
  | integer (n : Int)
  | string (s : String)
  | array (items : List Json)
  | object (members : List (String × Json))
  deriving Repr, Inhabited

namespace Json

mutual

/-- The compact text of a value. -/
def chars : Json → List Char
  | null => "null".toList
  | boolean b => (if b then "true" else "false").toList
  | integer n => (toString n).toList
  | string s => Quoted.write s
  | array items => '[' :: itemChars items
  | object members => '\x7b' :: memberChars members

/-- The compact text of items and of the bracket after them. -/
def itemChars : List Json → List Char
  | [] => [']']
  | [item] => item.chars ++ [']']
  | item :: rest => item.chars ++ ',' :: itemChars rest

/-- The compact text of members and of the brace after them. -/
def memberChars : List (String × Json) → List Char
  | [] => ['\x7d']
  | [(name, value)] => Quoted.write name ++ ':' :: value.chars ++ ['\x7d']
  | (name, value) :: rest => Quoted.write name ++ ':' :: value.chars ++ ',' :: memberChars rest

end

def text (j : Json) : String := String.ofList j.chars

/-- A line break and an indentation of two blanks for each level. -/
def newLine (level : Nat) : String := "\n" ++ String.ofList (List.replicate (2 * level) ' ')

mutual

/-- The text of a value with every item and member on a line of its own. -/
def prettyAt (level : Nat) : Json → String
  | array [] => "[]"
  | array items => "[" ++ prettyItems (level + 1) items ++ newLine level ++ "]"
  | object [] => "\x7b\x7d"
  | object members => "\x7b" ++ prettyMembers (level + 1) members ++ newLine level ++ "\x7d"
  | j => j.text

def prettyItems (level : Nat) : List Json → String
  | [] => ""
  | [item] => newLine level ++ item.prettyAt level
  | item :: rest => newLine level ++ item.prettyAt level ++ "," ++ prettyItems level rest

def prettyMembers (level : Nat) : List (String × Json) → String
  | [] => ""
  | [(name, value)] =>
    newLine level ++ String.ofList (Quoted.write name) ++ ": " ++ value.prettyAt level
  | (name, value) :: rest =>
    newLine level ++ String.ofList (Quoted.write name) ++ ": " ++ value.prettyAt level ++ "," ++
      prettyMembers level rest

end

/-- The text of a value with every item and member on a line of its own. -/
def pretty (j : Json) : String := j.prettyAt 0

end Json

end SourceDeps

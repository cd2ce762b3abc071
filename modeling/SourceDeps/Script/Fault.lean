import SourceDeps.Script.Tree

namespace SourceDeps.Script

/-- A place in a text: the line and, in bytes, the column, both counted from one. -/
structure Position where
  line : Nat
  column : Nat
  deriving DecidableEq, Repr

namespace Position

/-- Steps over characters until a byte is reached. -/
def advance (p : Position) : Nat → List Char → Position
  | _, [] => p
  | byte, c :: cs =>
    if byte = 0 then p
    else if c = '\n' then advance ⟨p.line + 1, 1⟩ (byte - 1) cs
    else advance ⟨p.line, p.column + c.utf8Size⟩ (byte - c.utf8Size) cs

/-- The place of a byte in a text. -/
def ofByte (source : String) (byte : Nat) : Position := advance ⟨1, 1⟩ byte source.toList

end Position

namespace Node

/-- The first error at or below a node: the node itself, or else the first error below the first
child with one. A node at which the search ends without an error counts, except where it began. -/
def firstErrorFrom (n : Node) (isStart : Bool) : Option Node :=
  if n.isError || n.isMissing then some n
  else
    match _h : n.children.find? hasError with
    | some c => c.firstErrorFrom false
    | none => if isStart then none else some n
termination_by n
decreasing_by exact sizeOf_child (List.mem_of_find?_eq_some _h)

/-- The first error in the tree of a node. -/
def firstError? (n : Node) : Option Node := n.firstErrorFrom true

end Node

end SourceDeps.Script

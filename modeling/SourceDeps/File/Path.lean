namespace SourceDeps.Path

/-- The parts of a path between slashes, empty ones included. -/
def split : List Char → List (List Char)
  | [] => [[]]
  | c :: cs =>
    if c = '/' then [] :: split cs
    else match split cs with
      | [] => [[c]]
      | part :: parts => (c :: part) :: parts

/-- The parts of a path that lead somewhere: all but empty ones and single dots. -/
def parts (path : String) : List String :=
  ((split path.toList).map String.ofList).filter fun p => p ≠ "" ∧ p ≠ "."

/-- The name of the file that a path leads to. A path that ends by going up has none. -/
def fileName? (path : String) : Option String :=
  (parts path).getLast?.filter (· ≠ "..")

/-- What stands after the last dot of a file name, unless nothing stands before that dot. -/
def extensionOf? (name : List Char) : Option (List Char) :=
  let (after, before) := name.reverse.span (· ≠ '.')
  match before with
  | '.' :: _ :: _ => some after.reverse
  | _ => none

/-- The extension of the file that a path leads to. -/
def extension? (path : String) : Option String :=
  (fileName? path).bind fun name => (extensionOf? name.toList).map String.ofList

end SourceDeps.Path

import SourceDeps.File.Extract
import SourceDeps.Json.Value

namespace SourceDeps.CommandLine

/-- The names of files with what they depend on, by names in ascending order. -/
abbrev Report := List (String × List String)

namespace Report

/-- Puts a file into a report, in place of what the report has on it. -/
def insert (name : String) (dependencies : List String) : Report → Report
  | [] => [(name, dependencies)]
  | (other, ds) :: rest =>
    if name < other then (name, dependencies) :: (other, ds) :: rest
    else if name = other then (name, dependencies) :: rest
    else (other, ds) :: insert name dependencies rest

def toJson (r : Report) : Json :=
  .object (r.map fun (name, ds) => (name, .array (ds.map .string)))

end Report

/-- What a file depends on, in a given dialect or in that which its extension or content shows. -/
def scan (read : FileReader) (dialect : Option Dialect) (o : FileOptions) (name : String) :
    Except Failure (List String) :=
  match dialect with
  | some d => scanAs read name d o
  | none => fromFile read name o

def scanAll (read : FileReader) (dialect : Option Dialect) (o : FileOptions)
    (names : List String) : Report :=
  names.foldl
    (fun report name =>
      match scan read dialect o name with
      | .ok ds => report.insert name ds
      | .error _ => report)
    []

end SourceDeps.CommandLine

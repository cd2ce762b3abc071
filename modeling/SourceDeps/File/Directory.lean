import SourceDeps.Failure
import SourceDeps.File.Path

namespace SourceDeps

/-- Gives the text of the file with a name, or why there is none. -/
abbrev FileReader := String → Except FileFault String

/-- What stands under a name: a directory, or a file with its bytes. -/
inductive Entry where
  | directory
  | file (bytes : ByteArray)

/-- A directory with what stands in it and below it. -/
structure Directory where
  entries : List (List String × Entry)

namespace Directory

/-- The directory with the given names in it. A name that ends in a slash is that of a directory. -/
def ofNames (files : List (String × ByteArray)) : Directory where
  entries := files.map fun (name, bytes) =>
    (Path.parts name, if name.endsWith "/" then .directory else .file bytes)

/-- What stands at a place in the directory. What holds something else is a directory, and so is the
directory itself. -/
def entryAt? (d : Directory) (place : List String) : Option Entry :=
  match d.entries.lookup place with
  | some entry => some entry
  | none =>
    if place.isEmpty || d.entries.any (fun e => place.isPrefixOf e.1) then some .directory
    else none

def isDirectory (d : Directory) (place : List String) : Bool :=
  match d.entryAt? place with
  | some .directory => true
  | _ => false

/-- The place to which the parts of a path lead. A step up leads from a directory to what holds it,
and never out of the directory. -/
def resolve (d : Directory) : List String → List String → Option (List String)
  | above, [] => some above.reverse
  | above, part :: parts =>
    if part = ".." then
      match above with
      | [] => none
      | last :: rest =>
        if d.isDirectory (last :: rest).reverse then d.resolve rest parts else none
    else d.resolve (part :: above) parts

/-- Whether a path can lead into the directory: it is not empty and starts where the directory is. -/
def isInside (path : String) : Bool := !path.isEmpty && !path.startsWith "/"

/-- What stands under a path. Under a path that ends in a slash stands no file. -/
def entry? (d : Directory) (path : String) : Option Entry :=
  if isInside path then
    match (d.resolve [] (Path.parts path)).bind d.entryAt? with
    | some (.file bytes) => if path.endsWith "/" then none else some (.file bytes)
    | entry => entry
  else none

def read (d : Directory) : FileReader := fun path =>
  match d.entry? path with
  | none => .error .notFound
  | some .directory => .error .isDirectory
  | some (.file bytes) =>
    match String.fromUTF8? bytes with
    | some text => .ok text
    | none => .error .notText

end Directory

end SourceDeps

import SourceDeps.Builtin
import SourceDeps.Dispatch
import SourceDeps.File.Directory

namespace SourceDeps

/-- The names without those of the runtime's modules, if these are not to be kept. -/
def FileOptions.kept (o : FileOptions) (names : List String) : List String :=
  if o.includeCore then names else names.filter fun n => !Builtin.isBuiltin n

/-- The extension of a file, empty if it has none. -/
def extensionOf (path : String) : String := (Path.extension? path).getD ""

/-- The surface that an extension of Sass hints at. -/
def Surface.ofExtension (extension : String) : Surface :=
  if Text.lowered extension = "sass" then .indented else .scss

/-- The options for a file: those given, with the dialect that the extension hints at and, for Sass,
the surface, unless one is given. -/
def ExtractOptions.hinted (o : ExtractOptions) (path : String) : ExtractOptions :=
  let extension := extensionOf path
  let hint := Dialect.ofExtension? extension
  let surface :=
    if hint = some .sass then o.sass.surface.or (some (.ofExtension extension)) else o.sass.surface
  { o with dialect := hint, sass := { surface } }

def readFile (read : FileReader) (path : String) : Except Failure String :=
  match read path with
  | .ok text => .ok text
  | .error fault => .error (.file path fault)

/-- What a file depends on, and its tree. -/
def extractFile (read : FileReader) (path : String) (o : FileOptions) :
    Except Failure Extraction := do
  let text ← readFile read path
  let extraction ← SourceDeps.extract (.text text) (o.extract.hinted path)
  return { extraction with dependencies := o.kept extraction.dependencies }

/-- What a file depends on. -/
def fromFile (read : FileReader) (path : String) (o : FileOptions) :
    Except Failure (List String) := do
  return (← extractFile read path o).dependencies

/-- What a file depends on when it is read in a given dialect, whatever its extension. -/
def scanAs (read : FileReader) (path : String) (dialect : Dialect) (o : FileOptions) :
    Except Failure (List String) := do
  let text ← readFile read path
  let extraction ← SourceDeps.extract (.text text) { o.extract with dialect := some dialect }
  return o.kept extraction.dependencies

end SourceDeps

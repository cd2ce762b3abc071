import SourceDeps.Dialect
import SourceDeps.Stylesheet.Basic

namespace SourceDeps

/-- AMD: whether to leave out what is required inside factories and callbacks. -/
structure AmdOptions where
  skipLazyLoaded : Bool := false
  deriving DecidableEq, Repr, Inhabited

/-- ES6: whether to take `require` calls along, and whether to leave out `import` calls. -/
structure Es6Options where
  mixedImports : Bool := false
  skipAsyncImports : Bool := false
  deriving DecidableEq, Repr, Inhabited

/-- Sass: the surface of texts; with braces and semicolons if it is not given. -/
structure SassOptions where
  surface : Option Surface := none
  deriving DecidableEq, Repr, Inhabited

structure ExtractOptions where
  dialect : Option Dialect := none
  amd : AmdOptions := {}
  es6 : Es6Options := {}
  sass : SassOptions := {}
  deriving DecidableEq, Repr, Inhabited

/-- The options of an extraction from a file: also whether to keep the modules of the runtime. -/
structure FileOptions where
  includeCore : Bool := true
  extract : ExtractOptions := {}
  deriving DecidableEq, Repr, Inhabited

/-- The two ways to say how to extract: the options, or only the tag of a dialect. -/
inductive OptionsInput where
  | tag (name : String)
  | options (o : ExtractOptions)

/-- The options that are meant. -/
def OptionsInput.normalize : OptionsInput → ExtractOptions
  | tag name => { dialect := some (.ofTag name) }
  | options o => o

end SourceDeps

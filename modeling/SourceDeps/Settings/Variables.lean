import SourceDeps.Failure
import SourceDeps.Options

namespace SourceDeps.Settings

/-- The value of each variable that is set. -/
abbrev Variables := String → Option String

def includeCoreVariable : String := "PRECINCT_INCLUDE_CORE"

def dialectVariable : String := "PRECINCT_TYPE"

def skipLazyLoadedVariable : String := "PRECINCT_AMD_SKIP_LAZY_LOADED"

def mixedImportsVariable : String := "PRECINCT_ES6_MIXED_IMPORTS"

def skipAsyncImportsVariable : String := "PRECINCT_ES6_SKIP_ASYNC_IMPORTS"

def surfaceVariable : String := "PRECINCT_SASS_SYNTAX"

def variableNames : List String := [
  includeCoreVariable, dialectVariable, skipLazyLoadedVariable, mixedImportsVariable,
  skipAsyncImportsVariable, surfaceVariable]

/-- A value as it is compared. -/
def canonical (value : String) : String := Text.lowered (Text.trimmed value)

/-- The words for a switch that is on, and for one that is off. -/
def onWords : List String := ["1", "true", "yes", "on"]

def offWords : List String := ["0", "false", "no", "off", ""]

/-- The switch in a variable. -/
def switch (env : Variables) (name : String) (unset : Bool) : Except ConfigFault Bool :=
  match env name with
  | none => .ok unset
  | some value =>
    if canonical value ∈ onWords then .ok true
    else if canonical value ∈ offWords then .ok false
    else .error (.notBoolean name (canonical value))

/-- The dialect in a variable. A blank value is none. -/
def dialect (env : Variables) : Option Dialect :=
  match env dialectVariable with
  | none => none
  | some value =>
    if Text.trimmed value = "" then none else some (Dialect.ofTag (Text.trimmed value))

/-- The words for a surface of Sass. -/
def surfaceWords : List (String × Surface) :=
  [("scss", .scss), ("indented", .indented), ("sass", .indented)]

/-- The surface of Sass in a variable. -/
def surface (env : Variables) : Except ConfigFault (Option Surface) :=
  match env surfaceVariable with
  | none => .ok none
  | some value =>
    match surfaceWords.lookup (canonical value) with
    | some s => .ok (some s)
    | none => .error (.notSassSurface surfaceVariable (canonical value))

/-- Refuses a surface of Sass that is not one. -/
def validate (o : FileOptions) : Except ConfigFault Unit :=
  if o.extract.sass.surface = some .stylus then .error .stylusForSass else .ok ()

/-- The options that the variables hold. They are read in a fixed order. -/
def ofVariables (env : Variables) : Except ConfigFault FileOptions := do
  let includeCore ← switch env includeCoreVariable true
  let skipLazyLoaded ← switch env skipLazyLoadedVariable false
  let mixedImports ← switch env mixedImportsVariable false
  let skipAsyncImports ← switch env skipAsyncImportsVariable false
  let surface ← surface env
  let o : FileOptions := {
    includeCore
    extract := {
      dialect := dialect env
      amd := { skipLazyLoaded }
      es6 := { mixedImports, skipAsyncImports }
      sass := { surface } } }
  validate o
  return o

end SourceDeps.Settings

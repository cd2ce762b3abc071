import SourceDeps.Dialect
import SourceDeps.Json.Fault
import SourceDeps.Script.Fault
import SourceDeps.Source

namespace SourceDeps

/-- Why a file cannot be read as text. -/
inductive FileFault where
  | notFound
  | isDirectory
  | notText
  deriving DecidableEq, Repr

def FileFault.message : FileFault → String
  | notFound => "No such file or directory (os error 2)"
  | isDirectory => "Is a directory (os error 21)"
  | notText => "stream did not contain valid UTF-8"

/-- Why settings cannot be used. -/
inductive ConfigFault where
  /-- A switch that is neither on nor off. -/
  | notBoolean (name value : String)
  /-- A surface of Sass that there is none of. -/
  | notSassSurface (name value : String)
  /-- The surface of Stylus, for Sass. -/
  | stylusForSass
  deriving DecidableEq, Repr

def ConfigFault.message : ConfigFault → String
  | notBoolean name value => name ++ ": expected a boolean, got `" ++ value ++ "`"
  | notSassSurface name value => name ++ ": expected `scss` or `indented`, got `" ++ value ++ "`"
  | stylusForSass => "sass.syntax must be `scss` or `indented`, not `stylus`"

/-- Why there is no answer. -/
inductive Failure where
  /-- A text that is no script. -/
  | notScript (position : Script.Position)
  /-- A tree of the wrong family for an extractor. -/
  | wrongTree (dialect : Dialect) (found : Family)
  | config (fault : ConfigFault)
  | file (name : String) (fault : FileFault)
  | json (fault : Json.Fault)

def Failure.message : Failure → String
  | notScript p =>
    "could not parse content: syntax error at line " ++ toString p.line ++ ", column " ++
      toString p.column
  | wrongTree dialect found => dialect.tag ++ " extractor cannot read a " ++ found.name ++ " tree"
  | config fault => "config error: " ++ fault.message
  | file name fault => "io error reading " ++ name ++ ": " ++ fault.message
  | json fault => "serde json error: " ++ fault.message

end SourceDeps

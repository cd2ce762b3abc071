import SourceDeps.File.Extract
import SourceDeps.Options.Json
import SourceDeps.Settings.Variables

namespace SourceDeps.Settings

/-- The options for files that a text holds, with the failure that it is if it holds none. -/
def ofText (text : String) : Except Failure FileOptions :=
  match FileOptions.ofJson text with
  | .error fault => .error (.json fault)
  | .ok o =>
    match validate o with
    | .error fault => .error (.config fault)
    | .ok () => .ok o

def ofFile (read : FileReader) (path : String) : Except Failure FileOptions := do
  ofText (← readFile read path)

end SourceDeps.Settings

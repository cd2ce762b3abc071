import SourceDeps.CommandLine.Run

open SourceDeps

/-- Reads a file as text. -/
def readText (path : String) : IO (Except FileFault String) := do
  match ← (IO.FS.readBinFile path).toBaseIO with
  | .ok bytes =>
    match String.fromUTF8? bytes with
    | some text => return .ok text
    | none => return .error .notText
  | .error (.noFileOrDirectory ..) => return .error .notFound
  | .error _ => return .error .isDirectory

def main (arguments : List String) : IO UInt32 := do
  let texts ← (CommandLine.filesRead arguments).mapM fun path =>
    return (path, ← readText path)
  let read : FileReader := fun path => (texts.lookup path).getD (.error .notFound)
  let values ← (CommandLine.variablesRead read).mapM fun name =>
    return (name, ← IO.getEnv name)
  let env : Settings.Variables := fun name => (values.lookup name).join
  let outcome := CommandLine.run read env arguments
  IO.print outcome.output
  return outcome.exit.toUInt32

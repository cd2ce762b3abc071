import SourceDeps.CommandLine.Arguments
import SourceDeps.CommandLine.Report
import SourceDeps.Settings.EnvironmentFile
import SourceDeps.Settings.File

namespace SourceDeps.CommandLine

/-- What the command leaves: its exit code and what it prints. -/
structure Outcome where
  exit : Nat
  output : String
  deriving DecidableEq, Repr

/-- The name and the version of the command. -/
def versionText : String := "precinct 0.1.0\n"

def helpText : String :=
  "Print the modules each file depends on, as JSON.\n\n" ++
    "Usage: precinct [OPTIONS] <FILES>...\n"

/-- The file with settings for the environment. -/
def environmentFile : String := ".env"

/-- The environment with the settings of the environment file, if there is one. -/
def environment (read : FileReader) (env : Settings.Variables) : Settings.Variables :=
  match read environmentFile with
  | .ok text => Settings.EnvironmentFile.load env text
  | .error _ => env

/-- The options that are in force: those of the file that is named, or else those of the
environment, with the switches on top. -/
def options (read : FileReader) (env : Settings.Variables) (a : Arguments) :
    Except Failure FileOptions := do
  let o ← match a.config with
    | some path => Settings.ofFile read path
    | none =>
      match Settings.ofVariables (environment read env) with
      | .ok o => .ok o
      | .error fault => .error (.config fault)
  let on (s : Switch) : Bool := a.switches.contains s
  return {
    includeCore := o.includeCore && !on .noCore
    extract := { o.extract with
      amd := { skipLazyLoaded := o.extract.amd.skipLazyLoaded || on .amdSkipLazyLoaded }
      es6 := {
        mixedImports := o.extract.es6.mixedImports || on .es6MixedImports
        skipAsyncImports := o.extract.es6.skipAsyncImports || on .es6SkipAsyncImports } } }

/-- The dialect in which all files are read, if there is one: that of the arguments, or else that of
the options. -/
def dialect (a : Arguments) (o : FileOptions) : Option Dialect :=
  (a.dialect.map Dialect.ofTag).or o.extract.dialect

def run (read : FileReader) (env : Settings.Variables) (arguments : List String) : Outcome :=
  match Arguments.read arguments with
  | .error .usage => ⟨2, ""⟩
  | .error .help => ⟨0, helpText⟩
  | .error .version => ⟨0, versionText⟩
  | .ok a =>
    match options read env a with
    | .error _ => ⟨1, ""⟩
    | .ok o => ⟨0, (scanAll read (dialect a o) o a.files).toJson.pretty ++ "\n"⟩

/-- The files that the command may read. -/
def filesRead (arguments : List String) : List String :=
  match Arguments.read arguments with
  | .ok a => environmentFile :: a.config.toList ++ a.files
  | .error _ => []

/-- The variables that the command may look up. -/
def variablesRead (read : FileReader) : List String :=
  Settings.variableNames ++
    match read environmentFile with
    | .ok text => Settings.EnvironmentFile.references text.toList
    | .error _ => []

end SourceDeps.CommandLine

import SourceDeps.Detect
import SourceDeps.Extract.Amd
import SourceDeps.Extract.CommonJs
import SourceDeps.Extract.Es6
import SourceDeps.Extract.Styles

namespace SourceDeps

open SourceDeps.Extract

/-- The modules that a source depends on, and the tree they were found in. -/
structure Extraction where
  dependencies : List String := []
  tree : Option SourceTree := none

/-- Runs the extractor of a dialect. Dialects without one find nothing. -/
def runExtractor (dialect : Dialect) (source : Source) (options : ExtractOptions) :
    Except Failure Extracted :=
  match dialect with
  | .commonJs => CommonJs.extract source
  | .amd => Amd.extract options.amd source
  | .es6 => Es6.extract options.es6 source
  | .sass => Sass.extract options.sass source
  | .stylus => Stylus.extract source
  | .less | .none => .ok {}

/-- Extracts with a known dialect. The tree is the one that the extractor read, or else the one
that was given. -/
def extractAs (dialect : Dialect) (source : Source) (options : ExtractOptions) :
    Except Failure Extraction := do
  let found ← runExtractor dialect source options
  return ⟨found.dependencies, found.tree.or source.tree?⟩

/-- Extracts from a text with the dialect that is found in it, given what it was read as. In a text
that is no script there is nothing to find, which is no failure. -/
def extractRead (options : ExtractOptions) :
    Except Script.Position Script.Tree → Except Failure Extraction
  | .ok t => extractAs (Detect.ofScript t) (.tree (.script t)) options
  | .error _ => .ok {}

/-- Finds the modules that a source depends on. -/
def extract (source : Source) (options : ExtractOptions) : Except Failure Extraction :=
  match options.dialect, source with
  | some dialect, source => extractAs dialect source options
  | none, .tree t => extractAs t.detect (.tree t) options
  | none, .text content => extractRead options (Script.read content)

end SourceDeps

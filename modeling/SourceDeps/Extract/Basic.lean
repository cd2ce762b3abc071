import SourceDeps.Failure
import SourceDeps.Script.Reader
import SourceDeps.Stylesheet.Reader

namespace SourceDeps.Extract

/-- The modules that an extractor found, and the tree that it read from a text itself. -/
structure Extracted where
  dependencies : List String := []
  tree : Option SourceTree := none

/-- Extracts from a script. A text is read first, and its tree is handed back. -/
def fromScript (dialect : Dialect) (find : Script.Tree → List String) :
    Source → Except Failure Extracted
  | .tree (.script t) => .ok ⟨find t, none⟩
  | .tree (.stylesheet _) => .error (.wrongTree dialect .stylesheet)
  | .text content =>
    ((Script.read content).mapError .notScript).map fun t => ⟨find t, some (.script t)⟩

/-- Extracts from a stylesheet. A text is read with the given surface, and its tree is handed
back. -/
def fromStylesheet (dialect : Dialect) (surface : Surface) (find : Stylesheet → List String) :
    Source → Except Failure Extracted
  | .tree (.stylesheet s) => .ok ⟨find s, none⟩
  | .tree (.script _) => .error (.wrongTree dialect .script)
  | .text content =>
    let s := Stylesheet.read surface content
    .ok ⟨find s, some (.stylesheet s)⟩

end SourceDeps.Extract

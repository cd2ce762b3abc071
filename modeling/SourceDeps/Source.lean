import SourceDeps.Script.Tree
import SourceDeps.Stylesheet.Basic

namespace SourceDeps

/-- The two kinds of trees. -/
inductive Family where
  | script
  | stylesheet
  deriving DecidableEq, Repr

def Family.name : Family → String
  | .script => "javascript"
  | .stylesheet => "stylesheet"

/-- The tree of a script or of a stylesheet. -/
inductive SourceTree where
  | script (tree : Script.Tree)
  | stylesheet (sheet : Stylesheet)

def SourceTree.family : SourceTree → Family
  | script _ => .script
  | stylesheet _ => .stylesheet

/-- A text still to be read, or a tree. -/
inductive Source where
  | text (content : String)
  | tree (tree : SourceTree)

def Source.tree? : Source → Option SourceTree
  | text _ => none
  | tree t => some t

end SourceDeps

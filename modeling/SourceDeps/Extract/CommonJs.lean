import SourceDeps.Extract.Basic
import SourceDeps.Script.Call

namespace SourceDeps.Extract.CommonJs

open SourceDeps.Script

/-- The module that a node requires, if it is such a call. -/
def required? (n : Node) : Option String :=
  if n.isCallOf "require" then n.firstString? else none

def dependencies (t : Script.Tree) : List String := t.root.preorder.filterMap required?

def extract (source : Source) : Except Failure Extracted :=
  fromScript .commonJs dependencies source

end SourceDeps.Extract.CommonJs

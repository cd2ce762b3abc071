import SourceDeps.Extract.CommonJs
import SourceDeps.Options

namespace SourceDeps.Extract.Es6

open SourceDeps.Script

/-- The module from which a statement imports or exports. -/
def statementSource? (n : Node) : Option String :=
  if n.kind = .importStatement ∨ n.kind = .exportStatement then
    (n.child? .source).bind Node.stringValue?
  else none

def loaded? (options : Es6Options) (n : Node) : Option String :=
  if (n.isDynamicImport && !options.skipAsyncImports) ||
      (options.mixedImports && n.isCallOf "require") then n.firstString?
  else none

def reference? (options : Es6Options) (n : Node) : Option String :=
  (statementSource? n).or (loaded? options n)

def dependencies (options : Es6Options) (t : Script.Tree) : List String :=
  t.root.preorder.filterMap (reference? options)

def extract (options : Es6Options) (source : Source) : Except Failure Extracted :=
  fromScript .es6 (dependencies options) source

end SourceDeps.Extract.Es6

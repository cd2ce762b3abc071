import SourceDeps.Script.Walk
import SourceDeps.Text.Blank

namespace SourceDeps.Script

namespace Node

/-- Of a call whose callee is a plain name, that name. -/
def calleeName? (n : Node) : Option String :=
  if n.kind = .callExpression then
    match n.child? .function with
    | some callee => if callee.kind = .identifier then some callee.text else none
    | none => none
  else none

def isCallOf (n : Node) (name : String) : Bool := n.calleeName? == some name

/-- Whether the node is a call `import(...)`. -/
def isDynamicImport (n : Node) : Bool :=
  n.kind == .callExpression &&
    match n.child? .function with
    | some callee => callee.kind == .import_
    | none => false

/-- The arguments of a call, without comments. -/
def callArguments (n : Node) : List Node :=
  match n.child? .arguments with
  | some arguments => arguments.namedChildren.filter fun c => c.kind != .comment
  | none => []

/-- The text between the quotes of a literal, as it is written. -/
def unquoted (s : String) : String :=
  let cs := Text.trim s.toList
  let isQuoted (q : Char) : Bool :=
    match cs with
    | c :: rest => c == q && rest.getLast? == some q
    | [] => false
  if isQuoted '\x22' || isQuoted '\x27' || isQuoted '\x60' then
    String.ofList (cs.drop 1).dropLast
  else String.ofList cs

/-- The value of a string, or of a template without substitutions. -/
def stringValue? (n : Node) : Option String :=
  match n.kind with
  | .string => some (unquoted n.text)
  | .templateString =>
    if n.namedChildren.any (·.kind == .templateSubstitution) then none
    else some (unquoted n.text)
  | _ => none

def arrayStrings (n : Node) : List String := n.namedChildren.filterMap stringValue?

def isArray (n : Node) : Bool := n.kind == .array

def isFunctionLike (n : Node) : Bool := n.kind.isFunctionLike

/-- The value of the first argument of a call, if that is a literal. -/
def firstString? (n : Node) : Option String := n.callArguments.head?.bind stringValue?

end Node

end SourceDeps.Script

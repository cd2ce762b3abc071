import SourceDeps.Dialect
import SourceDeps.Script.Call
import SourceDeps.Source

namespace SourceDeps.Detect

open SourceDeps.Script

/-- The module constructs that a script has. -/
structure Signals where
  es6 : Bool := false
  define : Bool := false
  driver : Bool := false
  require : Bool := false
  exports : Bool := false
  deriving DecidableEq, Repr

namespace Signals

def join (a b : Signals) : Signals :=
  ⟨a.es6 || b.es6, a.define || b.define, a.driver || b.driver, a.require || b.require,
    a.exports || b.exports⟩

/-- The dialect that the constructs point to. Module statements count most, then what is particular
to AMD, then what is particular to CommonJS. -/
def dialect (s : Signals) : Dialect :=
  if s.es6 then .es6
  else if s.define || s.driver then .amd
  else if s.require || s.exports then .commonJs
  else .none

end Signals

def takesArray (call : Node) : Bool :=
  match call.callArguments with
  | first :: _ => first.isArray
  | [] => false

/-- Whether a node is a call `require([...])`. -/
def isDriver (n : Node) : Bool := n.isCallOf "require" && takesArray n

/-- Whether a node is a program with a statement that is a call `require([...])`. -/
def hasDriverStatement (n : Node) : Bool :=
  n.kind == .program &&
    n.children.any fun s => s.kind == .expressionStatement && s.children.any isDriver

/-- Whether a node is `module.exports` or a member of `exports`. -/
def isExports (n : Node) : Bool :=
  match n.child? .object with
  | some object =>
    object.kind == .identifier &&
      (object.text == "exports" ||
        (object.text == "module" && match n.child? .property with
          | some property => property.text == "exports"
          | none => false))
  | none => false

/-- The constructs that a node is, not counting what is below it. -/
def signalsOf (n : Node) : Signals where
  es6 := n.kind == .importStatement || n.kind == .exportStatement
  define := n.isCallOf "define"
  driver := hasDriverStatement n
  require := n.isCallOf "require" && !takesArray n
  exports := n.kind == .memberExpression && isExports n

def signals (t : Script.Tree) : Signals :=
  t.root.preorder.foldl (fun s n => s.join (signalsOf n)) {}

def ofScript (t : Script.Tree) : Dialect := (signals t).dialect

end SourceDeps.Detect

namespace SourceDeps

/-- The dialect of a tree. Stylesheets are not looked at. -/
def SourceTree.detect : SourceTree → Dialect
  | script t => Detect.ofScript t
  | stylesheet _ => .none

end SourceDeps

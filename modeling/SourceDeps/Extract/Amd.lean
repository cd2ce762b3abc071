import SourceDeps.Extract.Basic
import SourceDeps.Options
import SourceDeps.Script.Call

namespace SourceDeps.Extract.Amd

open SourceDeps.Script

/-- The names that stand for the module system itself. -/
def pseudoModules : List String := ["require", "exports", "module"]

/-- What a node requires: the module of a call `require('x')` and, if arrays count, the modules of
a call `require([...])`. -/
def requiredBy (arrays : Bool) (n : Node) : List String :=
  if n.isCallOf "require" then
    match n.callArguments with
    | [] => []
    | first :: _ =>
      if first.isArray then if arrays then first.arrayStrings else []
      else first.stringValue?.toList
  else []

def innerRequires (arrays : Bool) (n : Node) : List String :=
  n.preorder.flatMap (requiredBy arrays)

/-- The arguments of a definition without the name that it may begin with. -/
def unnamed : List Node → List Node
  | first :: second :: rest =>
    if first.stringValue?.isSome then second :: rest else first :: second :: rest
  | args => args

def ofDefine (options : AmdOptions) (call : Node) : List String :=
  let args := unnamed call.callArguments
  let factory := args.find? Node.isFunctionLike
  match args.find? Node.isArray, factory with
  | some list, some f =>
    list.arrayStrings ++ if options.skipLazyLoaded then [] else innerRequires true f
  | some list, none => list.arrayStrings
  | none, some f => innerRequires (!options.skipLazyLoaded) f
  | none, none => []

/-- The modules of a call of `require` with a list, given the list and the other arguments. -/
def ofDriver (options : AmdOptions) (list : Node) (rest : List Node) : List String :=
  list.arrayStrings ++
    if options.skipLazyLoaded then []
    else (rest.filter Node.isFunctionLike).flatMap (innerRequires true)

/-- The list and the other arguments of a call `require([...], ...)`. -/
def driverArguments? (n : Node) : Option (Node × List Node) :=
  if n.isCallOf "require" then
    match n.callArguments with
    | first :: rest => if first.isArray then some (first, rest) else none
    | [] => none
  else none

/-- Whether a node is a call that names modules in the way of AMD. -/
def isHandled (n : Node) : Bool := n.isCallOf "define" || (driverArguments? n).isSome

/-- The modules that a node names, if it is such a call. -/
def contribution (options : AmdOptions) (n : Node) : List String :=
  if n.isCallOf "define" then ofDefine options n
  else match driverArguments? n with
    | some (list, rest) => ofDriver options list rest
    | none => []

/-- The modules that the outermost such calls name, with repetitions. -/
def mentioned (options : AmdOptions) (t : Script.Tree) : List String :=
  (t.root.walked fun n => !isHandled n).flatMap (contribution options)

/-- The first of each of the names that do not stand for the module system. -/
def distinct (names : List String) : List String :=
  names.foldl
    (fun found name =>
      if pseudoModules.contains name || found.contains name then found else found ++ [name])
    []

def dependencies (options : AmdOptions) (t : Script.Tree) : List String :=
  distinct (mentioned options t)

def extract (options : AmdOptions) (source : Source) : Except Failure Extracted :=
  fromScript .amd (dependencies options) source

end SourceDeps.Extract.Amd

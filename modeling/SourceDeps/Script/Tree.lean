namespace SourceDeps.Script

/-- What a node is. The kinds that have a meaning here are named; of every other kind the grammar's
name is kept. Marks and keywords are not named nodes. -/
inductive Kind where
  | program
  | expressionStatement
  | importStatement
  | exportStatement
  | callExpression
  | memberExpression
  | identifier
  | string
  | templateString
  | templateSubstitution
  | array
  | functionExpression
  | function
  | arrowFunction
  | generatorFunction
  /-- The callee of a call `import(...)`. -/
  | import_
  | arguments
  | comment
  | htmlComment
  /-- Text that does not fit the grammar. -/
  | error
  | other (name : String)
  | mark (text : String)
  deriving DecidableEq, Repr, Inhabited

namespace Kind

def names : List (String × Kind) := [
  ("program", program),
  ("expression_statement", expressionStatement),
  ("import_statement", importStatement),
  ("export_statement", exportStatement),
  ("call_expression", callExpression),
  ("member_expression", memberExpression),
  ("identifier", identifier),
  ("string", string),
  ("template_string", templateString),
  ("template_substitution", templateSubstitution),
  ("array", array),
  ("function_expression", functionExpression),
  ("function", function),
  ("arrow_function", arrowFunction),
  ("generator_function", generatorFunction),
  ("import", import_),
  ("arguments", arguments),
  ("comment", comment),
  ("html_comment", htmlComment)]

/-- The kind of a named node. -/
def ofName (name : String) : Kind := (names.lookup name).getD (other name)

/-- Whether nodes of the kind are named: all but marks and keywords. -/
def isNamed : Kind → Bool
  | mark _ => false
  | _ => true

/-- Whether nodes of the kind are functions written as expressions. -/
def isFunctionLike : Kind → Bool
  | functionExpression | function | arrowFunction | generatorFunction => true
  | _ => false

end Kind

/-- The part that a node is of its parent, where it matters. -/
inductive Field where
  | function
  | arguments
  | object
  | property
  | source
  deriving DecidableEq, Repr

/-- The bytes from `start` up to but not including `stop`. -/
structure Span where
  start : Nat
  stop : Nat
  deriving DecidableEq, Repr, Inhabited

inductive Node where
  | mk (kind : Kind) (field : Option Field) (span : Span) (text : String) (missing : Bool)
      (faulty : Bool) (children : List Node)
  deriving Inhabited

namespace Node

def kind : Node → Kind
  | mk k _ _ _ _ _ _ => k

def field : Node → Option Field
  | mk _ f _ _ _ _ _ => f

def span : Node → Span
  | mk _ _ s _ _ _ _ => s

/-- The text of a token, or of a string or template literal; empty for other nodes. -/
def text : Node → String
  | mk _ _ _ t _ _ _ => t

/-- Whether the node stands for a token that is not in the text. -/
def isMissing : Node → Bool
  | mk _ _ _ _ m _ _ => m

/-- Whether the node or one below it is an error. -/
def hasError : Node → Bool
  | mk _ _ _ _ _ e _ => e

def children : Node → List Node
  | mk _ _ _ _ _ _ cs => cs

def isError (n : Node) : Bool := n.kind == .error

/-- The children that are not marks or keywords. -/
def namedChildren (n : Node) : List Node := n.children.filter (·.kind.isNamed)

/-- The first child that is a given part of the node. -/
def child? (n : Node) (f : Field) : Option Node := n.children.find? fun c => c.field == some f

theorem sizeOf_child {n c : Node} (h : c ∈ n.children) : sizeOf c < sizeOf n := by
  cases n with
  | mk k f s t m e cs =>
    have hlt := List.sizeOf_lt_of_mem h
    simp only [children, mk.sizeOf_spec] at *
    omega

end Node

/-- A script that was read: the node of the whole text, and the text. -/
structure Tree where
  root : Node
  source : String
  deriving Inhabited

end SourceDeps.Script

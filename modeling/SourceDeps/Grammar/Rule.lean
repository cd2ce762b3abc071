namespace SourceDeps.Grammar

/-- How tightly a rule binds: not said, a number, or a name to be ranked by the grammar. -/
inductive Precedence where
  | unset
  | level (n : Int)
  | named (name : String)
  deriving DecidableEq, Hashable, Repr, Inhabited

/-- The side on which a rule groups when it meets itself. -/
inductive Side where
  | left
  | right
  deriving DecidableEq, Hashable, Repr

/-- The right-hand side of a named rule. -/
inductive Rule where
  | blank
  | token (name : String)
  | ref (name : String)
  | join (first second : Rule)
  | either (first second : Rule)
  | repeat1 (body : Rule)
  | ranked (precedence : Precedence) (side : Option Side) (body : Rule)
  | weighted (weight : Int) (body : Rule)
  | labelled (label : String) (body : Rule)
  | renamed (name : String) (body : Rule)
  deriving DecidableEq, Repr

namespace Rule

def seq : List Rule → Rule
  | [] => blank
  | [r] => r
  | r :: rs => join r (seq rs)

def choice : List Rule → Rule
  | [] => blank
  | [r] => r
  | r :: rs => either r (choice rs)

def optional (r : Rule) : Rule := either r blank

def many (r : Rule) : Rule := either (repeat1 r) blank

def commaSep1 (r : Rule) : Rule := join r (many (join (token ",") r))

def commaSep (r : Rule) : Rule := optional (commaSep1 r)

/-- Binds as tightly as the name says. -/
def binds (name : String) (r : Rule) : Rule := ranked (.named name) none r

/-- Groups to the left, as tightly as the name says. -/
def leftBinds (name : String) (r : Rule) : Rule := ranked (.named name) (some .left) r

/-- Groups to the right, as tightly as the name says. -/
def rightBinds (name : String) (r : Rule) : Rule := ranked (.named name) (some .right) r

def leftAssoc (r : Rule) : Rule := ranked (.level 0) (some .left) r

def rightAssoc (r : Rule) : Rule := ranked (.level 0) (some .right) r

end Rule

/-- One entry of a ranking: a named precedence or a named rule. -/
inductive Rank where
  | precedence (name : String)
  | rule (name : String)
  deriving DecidableEq, Repr

/-- A grammar as written: named rules, the first of which is the start; rules that are replaced by
their bodies; rules that make no node of their own; rankings, tightest first; the token from which
keywords are cut out; tokens that are read by context; tokens that may stand anywhere. -/
structure Source where
  rules : List (String × Rule)
  inlined : List String
  hidden : List String
  rankings : List (List Rank)
  word : String
  contextual : List String
  extras : List String

end SourceDeps.Grammar

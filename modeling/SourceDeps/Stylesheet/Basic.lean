namespace SourceDeps

/-- How a stylesheet is written: with braces and semicolons, by indentation, or as Stylus is. -/
inductive Surface where
  | scss
  | indented
  | stylus
  deriving DecidableEq, Repr, Inhabited

namespace Surface

def names : List (String × Surface) := [("scss", scss), ("indented", indented), ("stylus", stylus)]

def name : Surface → String
  | scss => "scss"
  | indented => "indented"
  | stylus => "stylus"

def ofName? (s : String) : Option Surface := names.lookup s

/-- Whether a line break ends the prelude of a rule. -/
def newlineEnds : Surface → Bool
  | scss => false
  | indented | stylus => true

theorem ofName?_name (s : Surface) : ofName? s.name = some s := by cases s <;> rfl

end Surface

/-- An at-rule: its name, its prelude without white space at the ends, the module-like parameters
in the prelude, and the line of its `@`, counted from one. -/
structure AtRule where
  name : String
  prelude : String
  params : List String
  line : Nat
  deriving DecidableEq, Repr, Inhabited

/-- The at-rules of a stylesheet in the order of the text. -/
structure Stylesheet where
  surface : Surface
  rules : List AtRule
  deriving DecidableEq, Repr, Inhabited

namespace Stylesheet

/-- The parameters of the rules with one of the given names, in order. -/
def paramsOf (sheet : Stylesheet) (names : List String) : List String :=
  (sheet.rules.filter fun r => names.contains r.name).flatMap (·.params)

theorem mem_paramsOf {sheet : Stylesheet} {names : List String} {p : String} :
    p ∈ sheet.paramsOf names ↔ ∃ r ∈ sheet.rules, r.name ∈ names ∧ p ∈ r.params := by
  simp [paramsOf, and_assoc]

end Stylesheet

end SourceDeps

import SourceDeps.Text.Blank

namespace SourceDeps.Stylesheet

open SourceDeps.Text

/-- Where a character stands: the quote that is open, and the open parentheses. -/
structure Nesting where
  quote : Option Char := none
  depth : Nat := 0
  deriving DecidableEq, Repr

namespace Nesting

/-- The nesting after a character. A closing parenthesis too many does nothing. -/
def after (n : Nesting) (c : Char) : Nesting :=
  match n.quote with
  | some q => if c = q then { n with quote := none } else n
  | none =>
    if c = '\x22' ∨ c = '\x27' then { n with quote := some c }
    else if c = '(' then { n with depth := n.depth + 1 }
    else if c = ')' then { n with depth := n.depth - 1 }
    else n

/-- Whether a character separates parts: a comma outside quotes and parentheses. -/
def separates (n : Nesting) (c : Char) : Bool := c == ',' && n == {}

end Nesting

/-- The parts between the outer commas, given the nesting before the first character. -/
def parts (n : Nesting) : List Char → List (List Char)
  | [] => [[]]
  | c :: cs =>
    if n.separates c then [] :: parts n cs
    else
      match parts (n.after c) cs with
      | p :: ps => (c :: p) :: ps
      | [] => [[c]]

/-- The characters up to the next quote of a kind, if there is one. -/
def untilQuote (quote : Char) : List Char → Option (List Char)
  | [] => none
  | c :: cs => if c = quote then some [] else (untilQuote quote cs).map (c :: ·)

def isWordChar (c : Char) : Bool :=
  !isBlank c && c != ',' && c != ';' && c != '\x22' && c != '\x27' && c != '(' && c != ')'

/-- The parameter that a text begins with: that of a closed string, or a bare word. An address in the
form `url(...)` is none. -/
def atStart? : List Char → Option String
  | '\x22' :: cs => (untilQuote '\x22' cs).map String.ofList
  | '\x27' :: cs => (untilQuote '\x27' cs).map String.ofList
  | 'u' :: 'r' :: 'l' :: '(' :: _ => none
  | cs =>
    let word := cs.takeWhile isWordChar
    if word.isEmpty then none else some (String.ofList word)

/-- The parameter that a part begins with, once the white space around it is dropped. -/
def leading? (part : List Char) : Option String := atStart? (trim part)

def dropSemicolons (cs : List Char) : List Char := (cs.reverse.dropWhile (· == ';')).reverse

def params (prelude : List Char) : List String :=
  (parts {} (dropSemicolons prelude)).filterMap leading?

end SourceDeps.Stylesheet

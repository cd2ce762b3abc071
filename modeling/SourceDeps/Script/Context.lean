import SourceDeps.Script.Lexeme

/-! The tokens that depend on what may stand at a place. Each function starts at a position and
gives the token's start and end. -/

namespace SourceDeps.Script.Context

open SourceDeps.Text SourceDeps.Script.Lexeme

structure Extent where
  start : Nat
  stop : Nat
  deriving Repr

/-- The end of a line: a line feed or a separator. -/
def endsLine (c : Char) : Bool := c == '\n' || isSeparator c

/-- The text of a template from a position to the next backtick, substitution or escape. -/
def templateRest (b : Buffer) : Nat → Nat → Option Nat
  | 0, _ => none
  | fuel + 1, i =>
    match b.get i with
    | '\x00' => none
    | '\x60' | '\\' => some i
    | '$' => if b.get (i + 1) == '\x7b' then some i else templateRest b fuel (i + 1)
    | _ => templateRest b fuel (i + 1)

/-- The text of a template; at least one character. -/
def templateText? (b : Buffer) (i : Nat) : Option Extent := do
  let stop ← templateRest b (b.size - i + 1) i
  if i < stop then some ⟨i, stop⟩ else none

/-- The end of the text of an element from a position, and whether it holds more than line breaks
with the white space after them. -/
def elementRest (b : Buffer) : Nat → Nat → Bool → Bool → Nat × Bool
  | 0, i, _, seen => (i, seen)
  | fuel + 1, i, afterBreak, seen =>
    let c := b.get i
    if c == '\x00' || c == '<' || c == '>' || c == '\x7b' || c == '\x7d' || c == '&' then (i, seen)
    else if c == '\n' then elementRest b fuel (i + 1) true seen
    else
      let afterBreak := afterBreak && isAsciiBlank c
      elementRest b fuel (i + 1) afterBreak (seen || !afterBreak)

/-- The text of an element, and where its reading stopped. -/
def elementText (b : Buffer) (i : Nat) : Option Extent × Nat :=
  let (stop, seen) := elementRest b (b.size - i) i false false
  (if seen then some ⟨i, stop⟩ else none, stop)

/-- The end of a block comment from a position inside it: the position, whether the comment is
closed, and whether it holds a line break. -/
def blockRest (b : Buffer) : Nat → Nat → Bool → Nat × Bool × Bool
  | 0, i, newline => (i, false, newline)
  | fuel + 1, i, newline =>
    let c := b.get i
    if c == '\x00' then (i, false, newline)
    else if c == '*' then
      if b.get (i + 1) == '/' then (i + 2, true, newline) else blockRest b fuel (i + 1) newline
    else blockRest b fuel (i + 1) (newline || endsLine c)

/-- What a stretch of white space and comments says about a semicolon left out. -/
inductive Gap where
  | reject
  | sameLine
  | accept
  deriving DecidableEq

/-- Skips white space and comments: what they say, the position after them, and whether there was a
comment. Unless all of them are to be skipped, a block comment ends the search. -/
def skipGap (b : Buffer) (all : Bool) : Nat → Nat → Bool → Bool → Gap × Nat × Bool
  | 0, i, _, commented => (.accept, i, commented)
  | fuel + 1, i, newline, commented =>
    let i := b.skipWhile isAsciiBlank i
    if b.get i != '/' then (.accept, i, commented)
    else if b.get (i + 1) == '/' then
      let stop := b.skipWhile (fun c => c != '\x00' && !endsLine c) (i + 2)
      skipGap b all fuel stop newline true
    else if b.get (i + 1) == '*' then
      let (stop, closed, newline) := blockRest b (b.size - i) (i + 2) newline
      if closed && b.get stop != '/' && !all then
        (if newline then .accept else .sameLine, stop, true)
      else skipGap b all fuel stop newline (commented || closed)
    else (.reject, i + 1, commented)

/-- Whether the text after a line break starts a new statement. -/
def startsStatement (b : Buffer) (i : Nat) : Bool :=
  match b.get i with
  | '\x60' | ',' | ':' | ';' | '*' | '%' | '>' | '<' | '=' | '[' | '(' | '?' | '^' | '|' | '&'
  | '/' => false
  | '.' => isDigit (b.get (i + 1))
  | '+' => b.get (i + 1) == '+'
  | '-' => b.get (i + 1) == '-'
  | '!' => b.get (i + 1) != '='
  | 'i' =>
    if b.get (i + 1) != 'n' then true
    else if !isAsciiLetter (b.get (i + 2)) then false
    else if !b.startsWith (i + 2) "stanceof".toList then true
    else isAsciiLetter (b.get (i + 10))
  | _ => true

/-- Whether a semicolon may be left out: whether it may, where the search stopped, and whether it
met a comment. `afterComment` says that a comment with a line break in it is enough. -/
def semicolon (b : Buffer) (afterComment : Bool) : Nat → Nat → Bool → Bool × Nat × Bool
  | 0, i, commented => (false, i, commented)
  | fuel + 1, i, commented =>
    if b.get i == '\x00' then (true, i, commented)
    else
      let (gap, j, commented) :=
        if b.get i == '/' then skipGap b false (b.size + 1) i false commented
        else (.sameLine, i, commented)
      if gap == .reject then (false, j, commented)
      else if gap == .accept && afterComment && b.get j != ',' && b.get j != '=' then
        (true, j, commented)
      else if b.get j == '\x7d' then (true, j, commented)
      else if endsLine (b.get j) then
        let (gap, k, commented) := skipGap b true (b.size + 1) (j + 1) false commented
        if gap == .reject then (false, k, commented)
        else (startsStatement b k, k, commented)
      else if isAsciiBlank (b.get j) then semicolon b afterComment fuel (j + 1) commented
      else (false, j, commented)

/-- The question mark of a conditional: not one of two, and not before a point unless a digit
follows. -/
def question? (b : Buffer) (i : Nat) : Option Extent :=
  let i := b.skipWhile isAsciiBlank i
  if b.get i != '?' || b.get (i + 1) == '?' then none
  else if b.get (i + 1) == '.' && !isDigit (b.get (i + 2)) then none
  else some ⟨i, i + 1⟩

/-- A comment in the manner of HTML: from one of its marks to the end of the line. -/
def htmlComment? (b : Buffer) (i : Nat) : Option Extent :=
  let i := b.skipWhile (fun c => isAsciiBlank c || isSeparator c) i
  let line (j : Nat) : Option Extent :=
    some ⟨i, b.skipWhile (fun c => c != '\x00' && !endsLine c) j⟩
  if b.startsWith i "<!--".toList then line (i + 4)
  else if b.startsWith i "-->".toList then line (i + 3)
  else none

end SourceDeps.Script.Context

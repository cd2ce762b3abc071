import SourceDeps.Text.Buffer

/-! Each function gives the position after the longest text of a shape that starts at a position, if
there is one. The null character belongs to no shape. -/

namespace SourceDeps.Script.Lexeme

open SourceDeps.Text

/-- ASCII white space: tab, line feed, vertical tab, form feed, carriage return and space. -/
def isAsciiBlank (c : Char) : Bool := c == ' ' || ('\t' ≤ c && c ≤ '\r')

/-- The characters that only separate tokens: white space of all kinds, the byte order mark, the
word joiner and the zero-width space. -/
def isBlank (c : Char) : Bool :=
  isAsciiBlank c ||
    (c.val ≥ 0x80 &&
      (c.val == 0xA0 || c.val == 0x1680 || (0x2000 ≤ c.val && c.val ≤ 0x200B) || c.val == 0x2028 ||
        c.val == 0x2029 || c.val == 0x202F || c.val == 0x205F || c.val == 0x2060 ||
        c.val == 0x3000 || c.val == 0xFEFF))

/-- Line and paragraph separator. -/
def isSeparator (c : Char) : Bool := c.val == 0x2028 || c.val == 0x2029

def isDigit (c : Char) : Bool := '0' ≤ c && c ≤ '9'

def isHexDigit (c : Char) : Bool := isDigit c || ('a' ≤ c && c ≤ 'f') || ('A' ≤ c && c ≤ 'F')

def isOctalDigit (c : Char) : Bool := '0' ≤ c && c ≤ '7'

def isBinaryDigit (c : Char) : Bool := c == '0' || c == '1'

def isAsciiLetter (c : Char) : Bool := ('a' ≤ c && c ≤ 'z') || ('A' ≤ c && c ≤ 'Z')

/-- The ASCII characters that end a name. -/
def isPunctuation (c : Char) : Bool := ":;`\"'@#.,|^&<=>+-*/\\%?!~()[]\x7b\x7d".contains c

def isNameChar (c : Char) : Bool :=
  '\x1f' < c && !isBlank c && !(c.val < 0x80 && isPunctuation c)

/-- As many hexadecimal digits as asked for. -/
def hexDigits? (b : Buffer) : Nat → Nat → Option Nat
  | 0, i => some i
  | n + 1, i => if isHexDigit (b.get i) then hexDigits? b n (i + 1) else none

/-- An escaped character after its backslash and `u`: four digits, or any number in braces. -/
def unicodeEscape? (b : Buffer) (i : Nat) : Option Nat :=
  if b.get i == '\x7b' then
    let stop := b.skipWhile isHexDigit (i + 1)
    if i + 1 < stop && b.get stop == '\x7d' then some (stop + 1) else none
  else hexDigits? b 4 i

/-- One character of a name, plain or escaped. -/
def nameChar? (b : Buffer) (i : Nat) : Option Nat :=
  if b.atEnd i then none
  else if isNameChar (b.get i) then some (i + 1)
  else if b.get i == '\\' && b.get (i + 1) == 'u' then unicodeEscape? b (i + 2)
  else none

def nameRest (b : Buffer) : Nat → Nat → Nat
  | 0, i => i
  | fuel + 1, i =>
    match nameChar? b i with
    | some j => nameRest b fuel j
    | none => i

/-- A name: it does not start with a digit. -/
def name? (b : Buffer) (i : Nat) : Option Nat :=
  if isDigit (b.get i) then none
  else (nameChar? b i).map fun j => nameRest b (b.size - j) j

/-- A private name: a number sign and a name. -/
def privateName? (b : Buffer) (i : Nat) : Option Nat :=
  if b.get i == '#' then name? b (i + 1) else none

/-- A name with a hyphen in it, as elements and attributes have. -/
def elementName? (b : Buffer) (i : Nat) : Option Nat :=
  let isStart (c : Char) := isAsciiLetter c || c == '_' || c == '$'
  let isPart (c : Char) := isStart c || isDigit c
  if isStart (b.get i) then
    let stop := b.skipWhile isPart (i + 1)
    if b.get stop == '-' then some (b.skipWhile (fun c => isPart c || c == '-') (stop + 1))
    else none
  else none

/-- Digits with single underscores between them. -/
def digitsFrom (b : Buffer) (isDigit : Char → Bool) : Nat → Nat → Nat
  | 0, i => i
  | fuel + 1, i =>
    if isDigit (b.get i) then digitsFrom b isDigit fuel (i + 1)
    else if b.get i == '_' && isDigit (b.get (i + 1)) then digitsFrom b isDigit fuel (i + 2)
    else i

/-- One digit or more, with single underscores between them. -/
def digits? (b : Buffer) (isDigit : Char → Bool) (i : Nat) : Option Nat :=
  if isDigit (b.get i) then some (digitsFrom b isDigit (b.size - i) (i + 1)) else none

/-- An exponent: `e`, a sign if any, digits. -/
def exponent? (b : Buffer) (i : Nat) : Option Nat :=
  if b.get i == 'e' || b.get i == 'E' then
    let j := if b.get (i + 1) == '+' || b.get (i + 1) == '-' then i + 2 else i + 1
    digits? b isDigit j
  else none

/-- An integer that may go on with a point or an exponent: no zero in front, but for one. -/
def plainInteger? (b : Buffer) (i : Nat) : Option Nat :=
  let from1 (j : Nat) : Option Nat :=
    if isDigit (b.get j) && b.get j != '0' then
      let k := if b.get (j + 1) == '_' && isDigit (b.get (j + 2)) then j + 2 else j + 1
      some ((digits? b isDigit k).getD (j + 1))
    else none
  if b.get i == '0' then some ((from1 (i + 1)).getD (i + 1)) else from1 i

/-- A number after its point. -/
def fraction (b : Buffer) (i : Nat) : Nat :=
  let j := (digits? b isDigit i).getD i
  (exponent? b j).getD j

/-- An integer in another base, after its mark. -/
def based? (b : Buffer) (i : Nat) (mark : Char → Bool) (isDigit : Char → Bool) : Option Nat :=
  if b.get i == '0' && mark (b.get (i + 1)) then digits? b isDigit (i + 2) else none

def number? (b : Buffer) (i : Nat) : Option Nat :=
  let integers : List (Option Nat) := [
    based? b i (fun c => c == 'x' || c == 'X') isHexDigit,
    based? b i (fun c => c == 'b' || c == 'B') isBinaryDigit,
    based? b i (fun c => c == 'o' || c == 'O') isOctalDigit,
    digits? b isDigit i]
  let big := integers.map fun stop =>
    stop.bind fun j => if b.get j == 'n' then some (j + 1) else none
  let decimals : List (Option Nat) := [
    (plainInteger? b i).bind fun j => if b.get j == '.' then some (fraction b (j + 1)) else none,
    if b.get i == '.' then (digits? b isDigit (i + 1)).map fun _ => fraction b (i + 1) else none,
    (plainInteger? b i).bind (exponent? b)]
  (integers ++ big ++ decimals).foldl max none

/-- Where a block comment ends, given a position inside it. -/
def blockEnd? (b : Buffer) (i : Nat) : Option Nat :=
  if _h : i < b.chars.size then
    if b.get i == '\x00' then none
    else if b.get i == '*' && b.get (i + 1) == '/' then some (i + 2)
    else blockEnd? b (i + 1)
  else none
termination_by b.chars.size - i

/-- A comment: to the end of the line, or between its marks. -/
def comment? (b : Buffer) (i : Nat) : Option Nat :=
  if b.get i != '/' then none
  else if b.get (i + 1) == '/' then
    some (b.skipWhile (fun c => c != '\r' && c != '\n' && c != '\x00' && !isSeparator c) (i + 2))
  else if b.get (i + 1) == '*' then blockEnd? b (i + 2)
  else none

/-- The line that names the program for a script. -/
def hashBang? (b : Buffer) (i : Nat) : Option Nat :=
  if b.get i == '#' && b.get (i + 1) == '!' then
    some (b.skipWhile (fun c => c != '\n' && c != '\x00') (i + 2))
  else none

/-- The characters from a position on that satisfy a test; at least one. -/
def run? (b : Buffer) (p : Char → Bool) (i : Nat) : Option Nat :=
  let stop := b.skipWhile p i
  if i < stop then some stop else none

/-- Part of a string between quotes of one kind. -/
def fragment? (b : Buffer) (quote : Char) (i : Nat) : Option Nat :=
  run? b (fun c => c != quote && c != '\\' && c != '\r' && c != '\n' && c != '\x00') i

/-- The position after part of an attribute's string: an ampersand counts if neither a letter nor
a number sign follows. -/
def attributeRest (b : Buffer) (quote : Char) : Nat → Nat → Nat
  | 0, i => i
  | fuel + 1, i =>
    let c := b.get i
    let d := b.get (i + 1)
    if b.atEnd i || c == '\x00' || c == quote then i
    else if c == '&' then
      if b.atEnd (i + 1) || d == '\x00' || d == '#' || isAsciiLetter d then i
      else attributeRest b quote fuel (i + 2)
    else attributeRest b quote fuel (i + 1)

/-- Part of an attribute's string between quotes of one kind. -/
def attributeFragment? (b : Buffer) (quote : Char) (i : Nat) : Option Nat :=
  let stop := attributeRest b quote (b.size - i) i
  if i < stop then some stop else none

/-- A character reference: a number or a name between an ampersand and a semicolon. -/
def reference? (b : Buffer) (i : Nat) : Option Nat :=
  let closed (start most stop : Nat) : Option Nat :=
    if start < stop && stop ≤ start + most && b.get stop == ';' then some (stop + 1) else none
  if b.get i != '&' then none
  else if b.get (i + 1) == '#' then
    if b.get (i + 2) == 'x' || b.get (i + 2) == 'X' then
      closed (i + 3) 6 (b.skipWhile isHexDigit (i + 3))
    else closed (i + 2) 5 (b.skipWhile isDigit (i + 2))
  else closed (i + 1) 30 (b.skipWhile isAsciiLetter (i + 1))

def escape? (b : Buffer) (i : Nat) : Option Nat :=
  let c := b.get (i + 1)
  if b.get i != '\\' || b.atEnd (i + 1) || c == '\x00' then none
  else if c == 'x' then hexDigits? b 2 (i + 2)
  else if c == 'u' then unicodeEscape? b (i + 2)
  else if isOctalDigit c then
    some (if !isOctalDigit (b.get (i + 2)) then i + 2
      else if !isOctalDigit (b.get (i + 3)) then i + 3 else i + 4)
  else if c == '\r' || c == '?' then
    some (if b.get (i + 2) == '\n' || isSeparator (b.get (i + 2)) then i + 3 else i + 2)
  else some (i + 2)

/-- A class of characters in a regular expression, given the position after its bracket. -/
def classEnd? (b : Buffer) : Nat → Nat → Option Nat
  | 0, _ => none
  | fuel + 1, i =>
    let c := b.get i
    if b.atEnd i || c == '\n' || c == '\x00' then none
    else if c == ']' then some (i + 1)
    else if c == '\\' then
      if b.atEnd (i + 1) || b.get (i + 1) == '\n' || b.get (i + 1) == '\x00' then none
      else classEnd? b fuel (i + 2)
    else classEnd? b fuel (i + 1)

/-- The position after the body of a regular expression. -/
def patternRest (b : Buffer) : Nat → Nat → Nat
  | 0, i => i
  | fuel + 1, i =>
    let c := b.get i
    if b.atEnd i || c == '\n' || c == '\x00' || c == '/' then i
    else if c == '[' then
      match classEnd? b (b.size - i) (i + 1) with
      | some j => patternRest b fuel j
      | none => i
    else if c == '\\' then
      if b.atEnd (i + 1) || b.get (i + 1) == '\n' || b.get (i + 1) == '\x00' then i
      else patternRest b fuel (i + 2)
    else patternRest b fuel (i + 1)

/-- The body of a regular expression. -/
def pattern? (b : Buffer) (i : Nat) : Option Nat :=
  let stop := patternRest b (b.size - i) i
  if i < stop then some stop else none

/-- The words `static get` with a line break after them. -/
def staticGet? (b : Buffer) (i : Nat) : Option Nat :=
  if !b.startsWith i "static".toList then none
  else
    let j := b.skipWhile isAsciiBlank (i + 6)
    if j == i + 6 || !b.startsWith j "get".toList then none
    else
      let stop := b.skipWhile isAsciiBlank (j + 3)
      ((List.range (stop - (j + 3))).map (j + 3 + ·)).foldl
        (fun found k => if b.get k == '\n' then some (k + 1) else found) none

/-- How far a text that is no token was read when that showed: a backslash is read as the start of
an escape, a number sign as the start of a private name, any other character not at all. -/
def failure (b : Buffer) (i : Nat) : Nat :=
  let from1 (start most : Nat) : Nat := min (b.skipWhile isHexDigit start) (start + most)
  if b.get i == '#' then i + 1
  else if b.get i == '\\' then
    if b.get (i + 1) == 'x' then from1 (i + 2) 2
    else if b.get (i + 1) == 'u' then
      if b.get (i + 2) == '\x7b' then b.skipWhile isHexDigit (i + 3) else from1 (i + 2) 4
    else i + 1
  else i

end SourceDeps.Script.Lexeme

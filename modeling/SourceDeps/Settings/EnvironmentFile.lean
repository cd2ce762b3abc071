import SourceDeps.Settings.Variables
import SourceDeps.Text.Bytes

/-! Environment files: lines `NAME=value` that set variables, up to the first line that is not well
formed. Values may be quoted, also over several lines, and refer to variables that are set. -/

namespace SourceDeps.Settings.EnvironmentFile

/-- Where in a line the next character stands: in a plain stretch, behind white space, in quotes, or
behind a backslash. -/
inductive Place where
  | plain
  | space
  | escape
  | weak
  | weakEscape
  | strong
  | strongEscape
  deriving DecidableEq

/-- The place behind a character that opens something, or else a plain one. -/
def Place.opened (c : Char) : Place :=
  match c with
  | '\\' => .escape
  | '\x22' => .weak
  | '\x27' => .strong
  | _ => .plain

/-- The place behind a character. -/
def Place.after (p : Place) (c : Char) : Place :=
  match p with
  | plain => if Text.isBlank c && c != '\n' && c != '\r' then space else opened c
  | space => opened c
  | escape => plain
  | weak => if c = '\\' then weakEscape else if c = '\x22' then plain else weak
  | weakEscape => weak
  | strong => if c = '\\' then strongEscape else if c = '\x27' then plain else strong
  | strongEscape => strong

/-- How the scan of a line ends: in some place, or before a comment. -/
inductive Ending where
  | at (p : Place)
  | comment (before : List Char)

def scan : Place → List Char → List Char → Ending
  | p, _, [] => .at p
  | p, seen, c :: cs =>
    if p = .space ∧ c = '#' then .comment seen.reverse else scan (p.after c) (c :: seen) cs

/-- Lines with their line breaks. -/
def linesOf : List Char → List (List Char)
  | [] => []
  | c :: cs =>
    if c = '\n' then ['\n'] :: linesOf cs
    else match linesOf cs with
      | [] => [[c]]
      | line :: lines => (c :: line) :: lines

def withoutBreak (line : List Char) : List Char :=
  match line.reverse with
  | '\n' :: '\r' :: rest => rest.reverse
  | '\n' :: rest => rest.reverse
  | _ => line

/-- Joins lines that belong together. The last joined line is missing if it is not finished. A
comment cuts what has been joined down to as many bytes as stand before it on its own line. -/
def joined : List Char → Place → List (List Char) → List (Option (List Char))
  | _, p, [] => if p = .plain then [] else [none]
  | before, p, line :: lines =>
    let whole := before ++ line
    if (whole.dropWhile Text.isBlank).head? = some '#' then some [] :: joined [] .plain lines
    else
      match scan p [] line with
      | .comment kept =>
        some (Text.takeBytes (Text.byteLength kept) whole) :: joined [] .plain lines
      | .at .plain => some (withoutBreak whole) :: joined [] .plain lines
      | .at p => joined whole p lines

/-- What a name stands for in a value: the variable of the environment, or else the one that was
read, or nothing. -/
def referred (environment : Variables) (read : List (String × String)) (name : List Char) :
    List Char :=
  let name := String.ofList name
  ((environment name).or (read.lookup name)).getD "" |>.toList

/-- The state in which a value is read. -/
inductive Mode where
  | plain
  | strong
  | weak
  | escape (weak : Bool)
  /-- The value is finished; only a comment may follow. -/
  | finished
  /-- Behind a dollar sign, with the characters of the name so far in reverse order. -/
  | name (weak : Bool) (letters : List Char)
  /-- The same in braces. -/
  | braced (weak : Bool) (letters : List Char)

/-- The mode outside or inside of double quotes. -/
def Mode.ofQuotes (weak : Bool) : Mode := if weak then .weak else .plain

/-- What an escape stands for. -/
def escape? (c : Char) : Option Char :=
  match c with
  | '\\' | '\x27' | '\x22' | '$' | ' ' => some c
  | 'n' => some '\n'
  | _ => none

/-- Letters and digits; beyond ASCII any character counts as a letter. -/
def isNameCharacter (c : Char) : Bool := c.isAlphanum || 128 ≤ c.toNat

/-- Reads a value; `out` holds what it stands for so far, in reverse order. -/
def value (refer : List Char → List Char) : Mode → List Char → List Char → Option (List Char)
  | mode, out, [] =>
    match mode with
    | .plain | .escape false | .finished => some out.reverse
    | .name false letters => some (out.reverse ++ refer letters.reverse)
    | .strong | .weak | .escape true | .name true _ | .braced _ _ => none
  | mode, out, c :: cs =>
    match mode with
    | .finished =>
      if c = ' ' ∨ c = '\t' then value refer .finished out cs
      else if c = '#' then some out.reverse
      else none
    | .escape weak =>
      match escape? c with
      | some d => value refer (.ofQuotes weak) (d :: out) cs
      | none => none
    | .strong =>
      if c = '\x27' then value refer .plain out cs else value refer .strong (c :: out) cs
    | .name weak letters =>
      if isNameCharacter c then value refer (.name weak (c :: letters)) out cs
      else if c = '\x7b' ∧ letters = [] then value refer (.braced weak []) out cs
      else
        let out := (refer letters.reverse).reverse ++ out
        if c = '$' then value refer (.name weak []) out cs
        else value refer (.ofQuotes weak) (c :: out) cs
    | .braced weak letters =>
      if c = '\x7d' then
        value refer (.ofQuotes weak) ((refer letters.reverse).reverse ++ out) cs
      else value refer (.braced weak (c :: letters)) out cs
    | .weak =>
      if c = '$' then value refer (.name true []) out cs
      else if c = '\x22' then value refer .plain out cs
      else if c = '\\' then value refer (.escape true) out cs
      else value refer .weak (c :: out) cs
    | .plain =>
      if c = '$' then value refer (.name false []) out cs
      else if c = '\x27' then value refer .strong out cs
      else if c = '\x22' then value refer .weak out cs
      else if c = '\\' then value refer (.escape false) out cs
      else if c = ' ' ∨ c = '\t' then value refer .finished out cs
      else value refer .plain (c :: out) cs

/-- What a line says. -/
inductive Line where
  | empty
  | setting (name value : String)
  | faulty

/-- The name at the start of a line, and the rest. -/
def name? (cs : List Char) : Option (List Char × List Char) :=
  match cs with
  | [] => none
  | c :: _ =>
    if c.isAlpha || c == '_' then some (cs.span fun c => c.isAlphanum || c == '_' || c == '.')
    else none

/-- What follows a name on a line from its equals sign on. -/
def assigned (refer : List Char → List Char) (name rest : List Char) : Line :=
  match rest.dropWhile Text.isBlank with
  | '=' :: rest =>
    match rest.dropWhile Text.isBlank with
    | [] | '#' :: _ => .setting (String.ofList name) ""
    | rest =>
      match value refer .plain [] rest with
      | some v => .setting (String.ofList name) (String.ofList v)
      | none => .faulty
  | _ => .faulty

/-- Reads a line. The word `export` may stand before the name. -/
def line (refer : List Char → List Char) (cs : List Char) : Line :=
  match (Text.trimRight cs).dropWhile Text.isBlank with
  | [] | '#' :: _ => .empty
  | cs =>
    match name? cs with
    | none => .faulty
    | some (name, rest) =>
      let rest := rest.dropWhile Text.isBlank
      if name = ['e', 'x', 'p', 'o', 'r', 't'] ∧ rest.head? ≠ some '=' then
        match name? rest with
        | none => .faulty
        | some (name, rest) => assigned refer name rest
      else assigned refer name rest

/-- The environment with a value for a variable, unless it is set. -/
def withDefault (environment : Variables) (name value : String) : Variables := fun n =>
  if n = name then (environment n).or (some value) else environment n

/-- The environment after the lines, which set what is not set yet. `read` holds what they said so
far, the last setting first. -/
def apply : Variables → List (String × String) → List (Option (List Char)) → Variables
  | environment, _, [] => environment
  | environment, _, none :: _ => environment
  | environment, read, some cs :: lines =>
    match line (referred environment read) cs with
    | .faulty => environment
    | .empty => apply environment read lines
    | .setting name value =>
      apply (withDefault environment name value) ((name, value) :: read) lines

/-- The names to which the values in a text may refer. -/
def references : List Char → List String
  | [] => []
  | '$' :: '\x7b' :: cs => String.ofList (cs.takeWhile (· ≠ '\x7d')) :: references cs
  | '$' :: cs => String.ofList (cs.takeWhile isNameCharacter) :: references cs
  | _ :: cs => references cs

/-- The text without the mark of its byte order. -/
def withoutMark : List Char → List Char
  | '\uFEFF' :: cs => cs
  | cs => cs

/-- The environment with the settings of an environment file for what it does not set. -/
def load (environment : Variables) (text : String) : Variables :=
  apply environment [] (joined [] .plain (linesOf (withoutMark text.toList)))

end SourceDeps.Settings.EnvironmentFile

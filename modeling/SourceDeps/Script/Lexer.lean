import SourceDeps.Parse.Language
import SourceDeps.Script.Context
import SourceDeps.Script.Grammar

namespace SourceDeps.Script

open SourceDeps.Grammar SourceDeps.Parse SourceDeps.Text

/-- The numbers of the tokens of the grammar by the ways in which they are read. -/
structure Lexicon where
  keywords : Std.HashMap String Nat
  /-- The word token and the keywords. -/
  words : TokenSet
  /-- The marks by the numbers of their first characters, longest first. -/
  marks : Std.HashMap Nat (List (List Char × Nat))
  word : Nat
  elementName : Nat
  privateName : Nat
  number : Nat
  comment : Nat
  hashBang : Nat
  reference : Nat
  doubleFragment : Nat
  singleFragment : Nat
  doubleAttribute : Nat
  singleAttribute : Nat
  escape : Nat
  pattern : Nat
  patternEnd : Nat
  flags : Nat
  staticGet : Nat
  semicolon : Nat
  templateText : Nat
  question : Nat
  htmlComment : Nat
  elementText : Nat
  logicalOr : Nat

namespace Lexicon

/-- The tokens that are not read as they are written in the grammar. -/
def shapes : List String := [
  "", "hash_bang_line", "html_character_reference", "jsx_identifier",
  "unescaped_double_jsx_string_fragment", "unescaped_single_jsx_string_fragment",
  "unescaped_double_string_fragment", "unescaped_single_string_fragment", "escape_sequence",
  "comment", "end of regex", "regex_pattern", "regex_flags", "number", "identifier",
  "private_property_identifier", "static get", "_automatic_semicolon", "_template_chars",
  "_ternary_qmark", "html_comment", "jsx_text"]

def ofGrammar (g : Numbered) : Lexicon :=
  let find (name : String) : Nat := (g.terminal? name).getD 0
  let plain := g.terminals.toList.zipIdx.filter fun (t, _) => !shapes.contains t.token
  let (keywords, marks) := plain.partition fun (t, _) => t.token.all Char.isAlpha
  let byLength := marks.mergeSort fun (t, _) (u, _) => u.token.length ≤ t.token.length
  { keywords := Std.HashMap.ofList (keywords.map fun (t, i) => (t.token, i))
    words := (TokenSet.ofList (keywords.map (·.2))).insert (find "identifier")
    marks := byLength.foldr
      (fun (t, i) table => match t.token.toList with
        | [] => table
        | c :: cs => table.insert c.toNat ((c :: cs, i) :: table.getD c.toNat []))
      ∅
    word := find "identifier"
    elementName := find "jsx_identifier"
    privateName := find "private_property_identifier"
    number := find "number"
    comment := find "comment"
    hashBang := find "hash_bang_line"
    reference := find "html_character_reference"
    doubleFragment := find "unescaped_double_string_fragment"
    singleFragment := find "unescaped_single_string_fragment"
    doubleAttribute := find "unescaped_double_jsx_string_fragment"
    singleAttribute := find "unescaped_single_jsx_string_fragment"
    escape := find "escape_sequence"
    pattern := find "regex_pattern"
    patternEnd := find "end of regex"
    flags := find "regex_flags"
    staticGet := find "static get"
    semicolon := find "_automatic_semicolon"
    templateText := find "_template_chars"
    question := find "_ternary_qmark"
    htmlComment := find "html_comment"
    elementText := find "jsx_text"
    logicalOr := find "||" }

/-- The token that context decides, if one may stand at a position. -/
def contextual? (x : Lexicon) (b : Buffer) (valid : TokenSet) (i : Nat) : Option Token :=
  let token (terminal : Nat) (e : Context.Extent) : Token :=
    { terminal, start := e.start, stop := e.stop }
  let question (i : Nat) := (Context.question? b i).map (token x.question)
  if valid.contains x.templateText then
    if valid.contains x.semicolon then none
    else (Context.templateText? b i).map (token x.templateText)
  else
    let (text, j) := if valid.contains x.elementText then Context.elementText b i else (none, i)
    match text with
    | some e => some (token x.elementText e)
    | none =>
      if valid.contains x.semicolon then
        let (found, k, commented) :=
          Context.semicolon b (!valid.contains x.logicalOr) (b.size + 1) j false
        if found then some { terminal := x.semicolon, start := i, stop := i }
        else if !commented && valid.contains x.question && b.get k == '?' then question k
        else none
      else if valid.contains x.question then question j
      else if valid.contains x.htmlComment && !valid.contains x.logicalOr &&
          !valid.contains x.escape && !valid.contains x.pattern then
        (Context.htmlComment? b j).map (token x.htmlComment)
      else none

/-- A token that could be read, with what settles between tokens of one length. -/
structure Candidate extends Token where
  rank : Nat

/-- The longest candidate; of two of one length the one of the higher rank, then the first. -/
def best (cs : List Candidate) : Option Candidate :=
  cs.foldl (fun found c => match found with
    | none => some c
    | some d => if d.stop < c.stop || (d.stop == c.stop && d.rank < c.rank) then some c else some d)
    none

/-- Tokens that must start where the last one ended and that win over all others. -/
def joined (x : Lexicon) (b : Buffer) (valid : TokenSet) (i : Nat) : Option Token :=
  let read (terminal : Nat) (stop : Nat → Option Nat) : Option Token :=
    if valid.contains terminal then (stop i).map fun j => { terminal, start := i, stop := j }
    else none
  (read x.doubleFragment (Lexeme.fragment? b '\x22')).or <|
  (read x.singleFragment (Lexeme.fragment? b '\x27')).or <|
  (read x.doubleAttribute (Lexeme.attributeFragment? b '\x22')).or <|
  (read x.singleAttribute (Lexeme.attributeFragment? b '\x27')).or <|
  read x.patternEnd (fun i => if b.get i == '/' then some (i + 1) else none)

/-- The longest mark that may stand at a position. -/
def mark? (x : Lexicon) (b : Buffer) (valid : TokenSet) (i : Nat) : Option Candidate :=
  if b.atEnd i then none
  else
    let fits := fun (mark : List Char × Nat) => valid.contains mark.2 && b.startsWith i mark.1
    ((x.marks.getD (b.get i).toNat []).find? fits).map fun (cs, t) =>
      { terminal := t, start := i, stop := i + cs.length, rank := 2 }

def word? (x : Lexicon) (b : Buffer) (valid : TokenSet) (i : Nat) : Option Candidate :=
  if valid.meets x.words then
    (Lexeme.name? b i).map fun j =>
      { terminal := x.word, start := i, stop := j, keyword := x.keywords[b.slice i j]?, rank := 0 }
  else none

/-- The longest token that may stand after the white space at a position, or else where the white
space ends and how far the text was read. -/
def longest (x : Lexicon) (b : Buffer) (valid : TokenSet) (i : Nat) :
    Except (Nat × Nat) Token :=
  match x.joined b valid i with
  | some t => .ok t
  | none =>
    let k := b.skipWhile Lexeme.isBlank i
    let shape (rank start terminal : Nat) (stop : Nat → Option Nat) : Option Candidate :=
      if valid.contains terminal then
        (stop start).map fun j => { terminal, start, stop := j, rank }
      else none
    let candidates := [
      shape 0 i x.pattern (Lexeme.pattern? b),
      x.word? b valid k,
      x.mark? b valid k,
      shape 1 i x.escape (Lexeme.escape? b),
      shape 1 i x.flags (Lexeme.run? b fun c => 'a' ≤ c && c ≤ 'z'),
      shape 0 k x.number (Lexeme.number? b),
      shape 0 k x.comment (Lexeme.comment? b),
      shape 0 k x.elementName (Lexeme.elementName? b),
      shape 0 k x.privateName (Lexeme.privateName? b),
      shape 0 k x.hashBang (Lexeme.hashBang? b),
      shape 0 k x.reference (Lexeme.reference? b),
      shape 0 k x.staticGet (Lexeme.staticGet? b)]
    match best (candidates.filterMap id) with
    | some c => .ok c.toToken
    | none =>
      if b.atEnd k && valid.contains Numbered.endOfText then
        .ok { terminal := Numbered.endOfText, start := k, stop := k }
      else .error (k, Lexeme.failure b k)

end Lexicon

/-- The automaton of the grammar of scripts. -/
def automaton : Automaton := grammar.automaton

def lexicon : Lexicon := .ofGrammar automaton.toNumbered

/-- The tokens that are looked for after an error: all but the parts of strings, of regular
expressions and of elements, and those that only context decides. -/
def recoverable : TokenSet :=
  let parts := [
    lexicon.doubleFragment, lexicon.singleFragment, lexicon.doubleAttribute,
    lexicon.singleAttribute, lexicon.pattern, lexicon.patternEnd, lexicon.semicolon,
    lexicon.templateText, lexicon.question, lexicon.htmlComment, lexicon.elementText]
  .ofList ((List.range automaton.terminals.size).filter (!parts.contains ·))

/-- What keeps states apart: the tokens that say where context decides, and the flags of a regular
expression, which look like keywords. -/
def distinctions : Distinctions where
  watched := .ofList [
    lexicon.semicolon, lexicon.templateText, lexicon.question, lexicon.htmlComment,
    lexicon.elementText, lexicon.logicalOr, lexicon.escape, lexicon.pattern]
  guard := lexicon.flags
  guarded := .ofList lexicon.keywords.values

/-- Scripts as a language to be read. -/
def language : Language where
  automaton := automaton
  table := automaton.table distinctions
  extras := .ofList [lexicon.comment, lexicon.htmlComment]
  word := lexicon.word
  recoverable := recoverable
  contextual := lexicon.contextual?
  longest := lexicon.longest

end SourceDeps.Script

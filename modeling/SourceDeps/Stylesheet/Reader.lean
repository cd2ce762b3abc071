import SourceDeps.Stylesheet.Params
import SourceDeps.Stylesheet.Scan
import SourceDeps.Text.Bytes

namespace SourceDeps

open SourceDeps.Text SourceDeps.Stylesheet

namespace Stylesheet

def lineBreaks (cs : List Char) : Nat := cs.count '\n'

/-- A rule with the bytes of the text that it takes, from its `@` to the end of its prelude. -/
structure PlacedRule where
  rule : AtRule
  start : Nat
  stop : Nat
  deriving DecidableEq, Repr

/-- The rules from a place on, given the line and the bytes before it. -/
def rulesFrom (surface : Surface) (line byte : Nat) (cs : List Char) : List PlacedRule :=
  match cs with
  | [] => []
  | '\n' :: cs => rulesFrom surface (line + 1) (byte + 1) cs
  | '/' :: '*' :: cs =>
    let s := blockComment cs
    rulesFrom surface (line + lineBreaks s.taken) (byte + 2 + byteLength s.taken) s.rest
  | '/' :: '/' :: cs =>
    let s := restOfLine cs
    rulesFrom surface line (byte + 2 + byteLength s.taken) s.rest
  | '@' :: cs =>
    let name := ruleName cs
    match name.taken.getLast? with
    | none => rulesFrom surface line (byte + 1) cs
    | some last =>
      let body := prelude surface 0 last name.rest
      let text := trim body.taken
      let stop := byte + 1 + byteLength name.taken + byteLength body.taken
      { rule := ⟨String.ofList name.taken, String.ofList text, params text, line⟩
        start := byte, stop := stop } ::
        rulesFrom surface (line + lineBreaks body.taken) stop body.rest
  | c :: cs =>
    if c = '\x22' ∨ c = '\x27' then
      let s := quoted c cs
      rulesFrom surface (line + lineBreaks s.taken) (byte + 1 + byteLength s.taken) s.rest
    else rulesFrom surface line (byte + c.utf8Size) cs
termination_by cs.length
decreasing_by
  all_goals simp_wf
  · have hle := Taken.rest_length_le (all_blockComment cs)
    omega
  · have hle := Taken.rest_length_le (all_restOfLine cs)
    omega
  · have hn := Taken.rest_length_le (all_ruleName cs)
    have hle := Taken.rest_length_le (all_prelude surface 0 last (ruleName cs).rest)
    omega
  · have hle := Taken.rest_length_le (all_quoted c cs)
    omega

def placedRules (surface : Surface) (text : String) : List PlacedRule :=
  rulesFrom surface 1 0 text.toList

/-- The stylesheet of a text. Every text has one. -/
def read (surface : Surface) (text : String) : Stylesheet :=
  ⟨surface, (placedRules surface text).map (·.rule)⟩

end Stylesheet

end SourceDeps

import SourceDeps.Json.Reader
import SourceDeps.Json.Record
import SourceDeps.Json.Value
import SourceDeps.Stylesheet.Basic

namespace SourceDeps

open SourceDeps.Json

namespace AtRule

def record : Record AtRule where
  name := "AtRule"
  fields := [
    .of "name" readString fun r s => { r with name := s },
    .of "prelude" readString fun r s => { r with prelude := s },
    .of "params" (readList readString) fun r ps => { r with params := ps },
    .of "line" readNatural fun r n => { r with line := n }]
  required := true
  start := default

def toJson (r : AtRule) : Json :=
  .object [("name", .string r.name), ("prelude", .string r.prelude),
    ("params", .array (r.params.map .string)), ("line", .integer r.line)]

end AtRule

namespace Stylesheet

def record : Record Stylesheet where
  name := "StyleSheet"
  fields := [
    .of "syntax" (readNamed Surface.names) fun s v => { s with surface := v },
    .of "rules" (readList AtRule.record.read) fun s rs => { s with rules := rs }]
  required := true
  start := default

def ofJson (text : String) : Except Fault Stylesheet := decode (record.read .text) text

def toJson (s : Stylesheet) : Json :=
  .object [("syntax", .string s.surface.name), ("rules", .array (s.rules.map AtRule.toJson))]

end Stylesheet

end SourceDeps

import SourceDeps.Json.Reader
import SourceDeps.Json.Record
import SourceDeps.Json.Value
import SourceDeps.Options

/-! The options for files hold those of an extraction beside their own switch. So their members are
read in two passes: first the switch, then the others, which are kept until the object ends. -/

namespace SourceDeps

open SourceDeps.Json

/-- A dialect by its tag. -/
def Dialect.reading : Reading Dialect := fun origin d => (readString origin d).map ofTag

def Surface.reading : Reading Surface := readNamed Surface.names

def AmdOptions.record : Record AmdOptions where
  name := "AmdOptions"
  fields := [.of "skipLazyLoaded" readBoolean fun o b => { o with skipLazyLoaded := b }]
  start := {}

def Es6Options.record : Record Es6Options where
  name := "Es6Options"
  fields := [
    .of "mixedImports" readBoolean fun o b => { o with mixedImports := b },
    .of "skipAsyncImports" readBoolean fun o b => { o with skipAsyncImports := b }]
  start := {}

def SassOptions.record : Record SassOptions where
  name := "SassOptions"
  fields := [
    .of "syntax" (readOptional Surface.reading) fun o s => { o with surface := s }]
  start := {}

def ExtractOptions.record : Record ExtractOptions where
  name := "ExtractOptions"
  fields := [
    .of "type" (readOptional Dialect.reading) fun o d => { o with dialect := d },
    .of "amd" AmdOptions.record.read fun o b => { o with amd := b },
    .of "es6" Es6Options.record.read fun o b => { o with es6 := b },
    .of "sass" SassOptions.record.read fun o b => { o with sass := b }]
  start := {}

namespace FileOptions

/-- The name of the switch that the options for files have beside those of an extraction. -/
def switchName : String := "includeCore"

/-- Reads the switch, and keeps the other members in order. -/
def split (tail : Tail) :
    Option Bool → List (Draft × Draft) → Except Fault (Option Bool × List (Draft × Draft))
  | switch, [] =>
    match tail.stop? with
    | some why => .error (.stop why)
    | none => .ok (switch, [])
  | switch, (name, d) :: members =>
    match name with
    | .string (.ok s) _ =>
      if s = switchName then
        if switch.isSome then .error (.data (.duplicateField s))
        else do split tail (some (← readBoolean .text d)) members
      else
        match d.fault? 1 with
        | some why => .error (.stop why)
        | none => do
          let (switch, kept) ← split tail switch members
          return (switch, (name, d) :: kept)
    | .string (.error why) _ => .error (.stop why)
    | _ => .error (.stop .malformed)

def reading : Draft → Except Fault FileOptions
  | .object members tail => do
    let (switch, kept) ← split tail none members
    let extract ← ExtractOptions.record.ofMembers .kept .closed [] {} kept
    return { includeCore := switch.getD true, extract }
  | d => .error (d.mismatch "struct FileOptions")

def ofJson (text : String) : Except Fault FileOptions := decode reading text

end FileOptions

def ExtractOptions.ofJson (text : String) : Except Fault ExtractOptions :=
  decode (ExtractOptions.record.read .text) text

def AmdOptions.toJson (o : AmdOptions) : Json :=
  .object [("skipLazyLoaded", .boolean o.skipLazyLoaded)]

def Es6Options.toJson (o : Es6Options) : Json :=
  .object [("mixedImports", .boolean o.mixedImports),
    ("skipAsyncImports", .boolean o.skipAsyncImports)]

def SassOptions.toJson (o : SassOptions) : Json :=
  .object (o.surface.toList.map fun s => ("syntax", .string s.name))

def ExtractOptions.members (o : ExtractOptions) : List (String × Json) :=
  o.dialect.toList.map (fun d => ("type", .string d.tag)) ++
    [("amd", o.amd.toJson), ("es6", o.es6.toJson), ("sass", o.sass.toJson)]

def ExtractOptions.toJson (o : ExtractOptions) : Json := .object o.members

def FileOptions.toJson (o : FileOptions) : Json :=
  .object ((switchName, .boolean o.includeCore) :: o.extract.members)

end SourceDeps

import SourceDeps.Json.Draft

namespace SourceDeps.Json

/-- Where values are taken from: off the text one by one, or from a value kept as a whole. What is
refused is not quite the same. -/
inductive Origin where
  | text
  | kept
  deriving DecidableEq, Repr

/-- Reads a value from an origin. -/
abbrev Reading (α : Type) := Origin → Draft → Except Fault α

def readBoolean : Reading Bool
  | _, .boolean b => .ok b
  | _, d => .error (d.mismatch "a boolean")

def readString : Reading String
  | _, .string (.ok s) _ => .ok s
  | _, d => .error (d.mismatch "a string")

/-- A whole number of 64 bits. -/
def readNatural : Reading Nat
  | _, .number (.ok (.integer n)) _ =>
    if 0 ≤ n then .ok n.toNat else .error (.data (.value (.integer n) "usize"))
  | _, d => .error (d.mismatch "usize")

/-- A value that may be null. -/
def readOptional {α : Type} (read : Reading α) : Reading (Option α)
  | _, .null => .ok none
  | origin, d => (read origin d).map some

/-- The values of a list of drafts that are the items of an array with the given end. -/
def readItems {α : Type} (read : Reading α) (origin : Origin) (tail : Tail) :
    List Draft → Except Fault (List α)
  | [] =>
    match tail.stop? with
    | none => .ok []
    | some why => .error (.stop why)
  | d :: ds => do
    let a ← read origin d
    let as ← readItems read origin tail ds
    return a :: as

def readList {α : Type} (read : Reading α) : Reading (List α)
  | origin, .array items tail => readItems read origin tail items
  | _, d => .error (d.mismatch "a sequence")

/-- The value of one of some names. -/
def named {α : Type} (names : List (String × α)) (s : String) : Except Fault α :=
  match names.lookup s with
  | some a => .ok a
  | none => .error (.data (.unknownVariant s (names.map (·.1))))

/-- One of some names, as a string or as an object with the name and null. -/
def readNamed {α : Type} (names : List (String × α)) : Reading α
  | _, .string (.ok s) _ => named names s
  | _, .string (.error why) _ => .error (.stop why)
  | .text, .object [] tail => .error (.stop (tail.stop?.getD .malformed))
  | .text, .object ((name, d) :: more) tail =>
    match name with
    | .string (.ok s) _ => do
      let a ← named names s
      match d, more, tail with
      | .null, [], .closed => .ok a
      | .null, [], .broken false why => .error (.stop why)
      | .null, _, _ => .error (.stop .malformed)
      | d, _, _ => .error (d.mismatch "unit")
    | d => .error (d.mismatch "variant identifier")
  | .text, .nothing why => .error (.stop why)
  | .text, _ => .error (.stop .malformed)
  | .kept, .object [(.string (.ok s) _, d)] _ => do
    let a ← named names s
    match d with
    | .null | .object [] _ => .ok a
    | d => .error (d.mismatch "unit")
  | .kept, .object _ _ => .error (.data (.value .map "map with a single key"))
  | .kept, d => .error (d.mismatch "string or map")

/-- A field of a record: its name and how a value is put there. -/
structure Field (σ : Type) where
  name : String
  put : Origin → σ → Draft → Except Fault σ

/-- The field into which a value of some type is put. -/
def Field.of {α σ : Type} (name : String) (read : Reading α) (put : σ → α → σ) : Field σ where
  name := name
  put origin s d := (read origin d).map (put s)

/-- A kind of record: what it is called, its fields, whether all of them must be given, and the
record that has none of them yet. -/
structure Record (σ : Type) where
  name : String
  fields : List (Field σ)
  required : Bool := false
  start : σ

namespace Record

variable {σ : Type}

def expected (r : Record σ) : String := "struct " ++ r.name

/-- A count of things as it is written. -/
def counted (n : Nat) (thing : String) : String :=
  toString n ++ " " ++ thing ++ if n = 1 then "" else "s"

/-- The record from the items of an array, given how many items there are in all. -/
def ofItems (r : Record σ) (origin : Origin) (count : Nat) (tail : Tail) :
    List (Field σ) → σ → List Draft → Except Fault σ
  | [], s, items =>
    match origin, items, tail with
    | .text, [], .broken false why => .error (.stop why)
    | _, [], .closed => .ok s
    | .kept, _, _ =>
      .error (.data (.length count (counted r.fields.length "element" ++ " in sequence")))
    | .text, _, _ => .error (.stop .malformed)
  | f :: fs, s, d :: items => do ofItems r origin count tail fs (← f.put origin s d) items
  | _ :: _, s, [] =>
    match tail.stop? with
    | some why => .error (.stop why)
    | none =>
      if r.required then
        .error (.data (.length count (r.expected ++ " with " ++ counted r.fields.length "element")))
      else .ok s

/-- The record when all members are read, given the names of those it has. -/
def complete (r : Record σ) (seen : List String) (s : σ) : Except Fault σ :=
  if r.required then
    match r.fields.find? fun f => !seen.contains f.name with
    | some f => .error (.data (.missingField f.name))
    | none => .ok s
  else .ok s

/-- The record from the members of an object, given those that it already has. -/
def ofMembers (r : Record σ) (origin : Origin) (tail : Tail) :
    List String → σ → List (Draft × Draft) → Except Fault σ
  | seen, s, [] =>
    match tail.stop? with
    | some why => .error (.stop why)
    | none => r.complete seen s
  | seen, s, (name, d) :: members =>
    match name with
    | .string (.ok name) _ =>
      match r.fields.find? (·.name == name) with
      | some f =>
        if seen.contains name then .error (.data (.duplicateField name))
        else do ofMembers r origin tail (name :: seen) (← f.put origin s d) members
      | none =>
        match d.stop? with
        | some why => .error (.stop why)
        | none => ofMembers r origin tail seen s members
    | .string (.error why) _ => .error (.stop why)
    | _ => .error (.stop .malformed)

def read (r : Record σ) : Reading σ
  | origin, .array items tail => r.ofItems origin items.length tail r.fields r.start items
  | origin, .object members tail => r.ofMembers origin tail [] r.start members
  | _, d => .error (d.mismatch r.expected)

end Record

end SourceDeps.Json

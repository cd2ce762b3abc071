import SourceDeps.Json.Number
import SourceDeps.Json.Quoted

namespace SourceDeps.Json

def isSpace (c : Char) : Bool := c == ' ' || c == '\n' || c == '\t' || c == '\r'

def skipSpace (cs : List Char) : List Char := cs.dropWhile isSpace

namespace Draft

/-- A word of which the first letter has been read. -/
def word (d : Draft) : List Char → List Char → Draft × Option (List Char)
  | [], rest => (d, some rest)
  | _ :: _, [] => (.nothing .ended, none)
  | w :: ws, c :: cs => if c = w then word d ws cs else (.nothing .malformed, none)

/-- Splits what passing over a value gives into what prevents it and the rest. -/
def passed : Except Stop (List Char) → Option Stop × Option (List Char)
  | .ok rest => (none, some rest)
  | .error why => (some why, none)

def ofNumber (cs : List Char) : Draft × Option (List Char) :=
  let (skip, rest) := passed (Number.skip cs)
  (.number ((Number.read cs).map (·.1)) skip, rest)

/-- The draft of a string, read from after its first quote. -/
def ofQuoted (cs : List Char) : Draft × Option (List Char) :=
  let (skip, rest) := passed (Quoted.skip cs)
  (.string ((Quoted.read cs).map fun r => String.ofList r.1) skip, rest)

/-- The end of what holds a value at which the reading stops. -/
def brokenBy (d : Draft) : Tail := .broken false (d.stop?.getD .malformed)

/-- Steps over a colon; otherwise says why there is no value. -/
def afterColon (cs : List Char) : Except Stop (List Char) :=
  match skipSpace cs with
  | [] => .error .ended
  | ':' :: rest => .ok rest
  | _ => .error .malformed

/-- What comes next in an array or object before the given bracket. -/
inductive Next where
  | tail (t : Tail) (rest : Option (List Char))
  | more (cs : List Char)

/-- Steps over a comma, which the first element does not have before it, or over the bracket. -/
def next (bracket : Char) (first : Bool) (cs : List Char) : Next :=
  match skipSpace cs with
  | [] => .tail (.broken false .ended) none
  | c :: rest =>
    if c = bracket then .tail .closed (some rest)
    else if first then .more (c :: rest)
    else if c = ',' then
      match skipSpace rest with
      | [] => .tail (.broken true .ended) none
      | d :: rest => if d = bracket then .tail (.broken true .malformed) none else .more (d :: rest)
    else .tail (.broken false .malformed) none

mutual

/-- The value at the start of a text. `fuel` bounds the values that are looked at. -/
def value : Nat → List Char → Draft × Option (List Char)
  | 0, _ => (.nothing .malformed, none)
  | fuel + 1, cs =>
    match skipSpace cs with
    | [] => (.nothing .ended, none)
    | 'n' :: cs => word .null ['u', 'l', 'l'] cs
    | 't' :: cs => word (.boolean true) ['r', 'u', 'e'] cs
    | 'f' :: cs => word (.boolean false) ['a', 'l', 's', 'e'] cs
    | '\x22' :: cs => ofQuoted cs
    | '[' :: cs =>
      let (ds, tail, rest) := items fuel true cs
      (.array ds tail, rest)
    | '\x7b' :: cs =>
      let (ds, tail, rest) := members fuel true cs
      (.object ds tail, rest)
    | c :: cs =>
      if c = '-' || c.isDigit then ofNumber (c :: cs) else (.nothing .malformed, none)

/-- The items of an array from here on, and its end. -/
def items : Nat → Bool → List Char → List Draft × Tail × Option (List Char)
  | 0, _, _ => ([], .broken false .malformed, none)
  | fuel + 1, first, cs =>
    match next ']' first cs with
    | .tail t rest => ([], t, rest)
    | .more cs =>
      match value fuel cs with
      | (d, none) => ([d], d.brokenBy, none)
      | (d, some rest) =>
        let (ds, tail, rest) := items fuel false rest
        (d :: ds, tail, rest)

/-- The members of an object from here on, and its end. -/
def members : Nat → Bool → List Char → List (Draft × Draft) × Tail × Option (List Char)
  | 0, _, _ => ([], .broken false .malformed, none)
  | fuel + 1, first, cs =>
    match next '\x7d' first cs with
    | .tail t rest => ([], t, rest)
    | .more cs =>
      match value fuel cs with
      | (.string name skip, some rest) =>
        match afterColon rest with
        | .error why => ([(.string name skip, .nothing why)], .broken false why, none)
        | .ok rest =>
          match value fuel rest with
          | (d, none) => ([(.string name skip, d)], d.brokenBy, none)
          | (d, some rest) =>
            let (ds, tail, rest) := members fuel false rest
            ((.string name skip, d) :: ds, tail, rest)
      | (.string name skip, none) =>
        ([(.string name skip, .nothing .malformed)], .broken false (skip.getD .malformed), none)
      | (d, _) => ([(d, .nothing .malformed)], .broken false .malformed, none)

end

/-- The draft of a text, and what follows the value. -/
def ofChars (cs : List Char) : Draft × Option (List Char) := value (2 * cs.length + 2) cs

end Draft

/-- Reads a text as one value. What follows the value is looked at only if it is fit. -/
def decode {α : Type} (read : Draft → Except Fault α) (text : String) : Except Fault α := do
  let (d, rest) := Draft.ofChars text.toList
  let a ← read d
  match rest with
  | some rest => if rest.all isSpace then return a else throw (.stop .malformed)
  | none => throw (.stop .malformed)

end SourceDeps.Json

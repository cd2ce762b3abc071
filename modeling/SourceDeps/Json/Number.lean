import SourceDeps.Decimal.Shortest
import SourceDeps.Json.Draft

/-! A whole number that fits in 64 bits is kept exactly. Of any other the digits that fit are taken,
and a power of ten is applied to them in one multiplication or division, so that the last digit may
be off, but a number that is too large is noticed. -/

namespace SourceDeps.Json.Number

def digit (c : Char) : Nat := c.toNat - 48

/-- How many numbers there are of 64 bits. -/
def wordCount : Nat := 18446744073709551616

/-- Takes digits up for as long as the number fits in 64 bits; gives it with the digits left. -/
def fill (n : Nat) : List Char → Nat × List Char
  | [] => (n, [])
  | c :: cs => if n * 10 + digit c < wordCount then fill (n * 10 + digit c) cs else (n, c :: cs)

/-- A number times a power of ten; nothing if it is too large. Beyond the powers that there are, a
number is made smaller in steps, of which three leave nothing of it. -/
def scale : Nat → Float → Int → Option Float
  | 0, f, _ => some f
  | steps + 1, f, e =>
    if e.natAbs ≤ 308 then
      let power := Float.ofScientific 1 false e.natAbs
      if e < 0 then some (f / power)
      else if (f * power).isInf then none
      else some (f * power)
    else if f == 0 then some f
    else if 0 ≤ e then none
    else scale steps (f / Float.ofScientific 1 false 308) (e + 308)

/-- The number with the given sign, digits and exponent. -/
def ofParts (negative : Bool) (n : Nat) (e : Int) : Except Stop Number :=
  match scale 8 n.toUInt64.toFloat e with
  | some f => .ok (.floating (Decimal.text (if negative then -f else f)))
  | none => .error .malformed

/-- A whole number that fits in 64 bits, or else would do so without its sign. -/
def ofDigits (negative : Bool) (n : Nat) : Number :=
  if !negative then .integer n
  else if 0 < n ∧ n ≤ wordCount / 2 then .integer (-n)
  else .floating (Decimal.text (-n.toUInt64.toFloat))

/-- The digits at the start of a text, and the rest. -/
def digits (cs : List Char) : List Char × List Char := cs.span Char.isDigit

/-- What prevents going on where a digit is expected. -/
def noDigit : List Char → Stop
  | [] => .ended
  | _ => .malformed

/-- The sign of an exponent, which may be left out, and the rest. -/
def exponentSign : List Char → Bool × List Char
  | '+' :: cs => (false, cs)
  | '-' :: cs => (true, cs)
  | cs => (false, cs)

/-- The largest exponent that is worked out. -/
def maxExponent : Nat := 2147483647

/-- The number with an exponent, read from after its mark, and the rest. -/
def withExponent (negative : Bool) (n : Nat) (e : Int) (cs : List Char) :
    Except Stop (Number × List Char) :=
  let (below, cs) := exponentSign cs
  match digits cs with
  | ([], rest) => .error (noDigit rest)
  | (ds, rest) =>
    let x := ds.foldl (fun x c => x * 10 + digit c) 0
    let number :=
      if x ≤ maxExponent then ofParts negative n (if below then e - x else e + x)
      else if n ≠ 0 ∧ !below then .error .malformed
      else ofParts negative 0 0
    number.map (·, rest)

/-- The number with the given digits before its point, read from there on, and the rest. -/
def withFraction (negative : Bool) (n : Nat) (e : Int) (cs : List Char) :
    Except Stop (Number × List Char) :=
  match digits cs with
  | ([], rest) => .error (noDigit rest)
  | (ds, rest) =>
    let (n, left) := fill n ds
    let e := e - (ds.length - left.length : Nat)
    match rest with
    | 'e' :: rest | 'E' :: rest => withExponent negative n e rest
    | rest => (ofParts negative n e).map (·, rest)

/-- The number at the start of a text without a sign, and the rest. -/
def readUnsigned (negative : Bool) (cs : List Char) : Except Stop (Number × List Char) :=
  match digits cs with
  | ([], rest) => .error (noDigit rest)
  | ('0' :: _ :: _, _) => .error .malformed
  | (ds, rest) =>
    let (n, left) := fill 0 ds
    match rest with
    | '.' :: rest => withFraction negative n left.length rest
    | 'e' :: rest | 'E' :: rest => withExponent negative n left.length rest
    | rest =>
      if left.isEmpty then .ok (ofDigits negative n, rest)
      else (ofParts negative n left.length).map (·, rest)

def read : List Char → Except Stop (Number × List Char)
  | '-' :: cs => readUnsigned true cs
  | cs => readUnsigned false cs

/-- Passes over an exponent from after its mark. -/
def skipExponent (cs : List Char) : Except Stop (List Char) :=
  match digits (exponentSign cs).2 with
  | ([], _) => .error .malformed
  | (_, rest) => .ok rest

/-- Passes over a fraction from after the point. -/
def skipFraction (cs : List Char) : Except Stop (List Char) :=
  match digits cs with
  | ([], _) => .error .malformed
  | (_, 'e' :: rest) | (_, 'E' :: rest) => skipExponent rest
  | (_, rest) => .ok rest

def skipUnsigned (cs : List Char) : Except Stop (List Char) :=
  match digits cs with
  | ([], _) => .error .malformed
  | ('0' :: _ :: _, _) => .error .malformed
  | (_, '.' :: rest) => skipFraction rest
  | (_, 'e' :: rest) | (_, 'E' :: rest) => skipExponent rest
  | (_, rest) => .ok rest

def skip : List Char → Except Stop (List Char)
  | '-' :: cs => skipUnsigned cs
  | cs => skipUnsigned cs

end SourceDeps.Json.Number

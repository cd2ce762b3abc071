/-! The shortest decimal that reads back as a number `m · 2 ^ q`. The reals that round to it form an
interval, whose ends belong to it when `m` is even. For one digit, two digits and so on the two
neighbours of the number on that decimal grid are tried, the nearer first. -/

namespace SourceDeps.Decimal

/-- A positive number `m · 2 ^ q`, and whether the next smaller number is only half as far away as
the next larger one. -/
structure Binary where
  m : Nat
  q : Int
  lowerIsClose : Bool

/-- A decimal `digits · 10 ^ exponent`. -/
structure Digits where
  digits : Nat
  exponent : Int
  deriving DecidableEq, Repr

/-- How many fractions there are: they have 52 bits. -/
def fractionCount : Nat := 4503599627370496

/-- The size of a finite number. -/
def Binary.ofFloat (f : Float) : Binary :=
  let bits := f.toBits.toNat
  let fraction : Nat := bits % fractionCount
  let power : Nat := bits / fractionCount % 2048
  if power = 0 then ⟨fraction, -1074, false⟩
  else ⟨fraction + fractionCount, (power : Int) - 1075, decide (fraction = 0) && decide (1 < power)⟩

/-- A number times `2 ^ p` and `10 ^ k`, where negative exponents count as zero. -/
def scaled (a : Nat) (p k : Int) : Nat := a * Nat.pow 2 p.toNat * Nat.pow 10 k.toNat

/-- Whether `a · 2 ^ p ≤ b · 10 ^ k`. -/
def lePower (a : Nat) (p : Int) (b : Nat) (k : Int) : Bool :=
  scaled a p (-k) ≤ scaled b (-p) k

/-- Whether `b · 10 ^ k ≤ a · 2 ^ p`. -/
def gePower (a : Nat) (p : Int) (b : Nat) (k : Int) : Bool :=
  scaled b (-p) k ≤ scaled a p (-k)

namespace Binary

/-- Whether a decimal rounds to the number. The ends of the interval are counted in quarters of
`2 ^ q`. -/
def isReadFrom (x : Binary) (d : Digits) : Bool :=
  let low := 4 * x.m - if x.lowerIsClose then 1 else 2
  let high := 4 * x.m + 2
  let q := x.q - 2
  if x.m % 2 = 0 then lePower low q d.digits d.exponent && gePower high q d.digits d.exponent
  else !gePower low q d.digits d.exponent && !lePower high q d.digits d.exponent

/-- The largest multiple of `10 ^ k` that is not above the number. -/
def floorAt (x : Binary) (k : Int) : Nat :=
  scaled x.m x.q (-k) / scaled 1 (-x.q) k

/-- Whether the number is nearer to `n · 10 ^ k` than to the next multiple, or as near and `n` is
even. -/
def isNearerBelow (x : Binary) (n : Nat) (k : Int) : Bool :=
  let double := 2 * x.m
  let middle := 2 * n + 1
  if gePower double x.q middle k then lePower double x.q middle k && n % 2 = 0 else true

/-- The exponent of the first digit: the least `k` for which the number is below `10 ^ (k + 1)`. -/
def leadingExponent (x : Binary) : Int :=
  ((List.range 700).find? fun (i : Nat) => !gePower x.m x.q 1 ((i : Int) - 349)).elim 0
    fun (i : Nat) => (i : Int) - 350

/-- The decimal with a number of digits that reads back, if there is one. -/
def withDigits? (x : Binary) (leading : Int) (count : Nat) : Option Digits :=
  let k := leading - (count : Int) + 1
  let n := x.floorAt k
  let below : Digits := ⟨n, k⟩
  let above : Digits := ⟨n + 1, k⟩
  let (first, second) := if x.isNearerBelow n k then (below, above) else (above, below)
  if x.isReadFrom first then some first
  else if x.isReadFrom second then some second
  else none

/-- The shortest decimal that reads back. -/
def shortest (x : Binary) : Digits :=
  let leading := x.leadingExponent
  ((List.range 17).findSome? fun i => x.withDigits? leading (i + 1)).getD ⟨x.m, x.q⟩

end Binary

/-- A decimal without zeros at the end of its digits. -/
def Digits.normalize : Nat → Digits → Digits
  | 0, d => d
  | fuel + 1, d =>
    if d.digits != 0 && d.digits % 10 = 0 then normalize fuel ⟨d.digits / 10, d.exponent + 1⟩ else d

def zeros (n : Int) : String := String.ofList (List.replicate n.toNat '0')

/-- The text of a positive decimal: positional if its point falls within sixteen digits or at most
four zeros come after the point, else with an exponent. -/
def Digits.text (d : Digits) : String :=
  let d := d.normalize 20
  let s := toString d.digits
  let length : Int := s.length
  let point := length + d.exponent
  if 0 ≤ d.exponent ∧ point ≤ 16 then s ++ zeros d.exponent ++ ".0"
  else if 0 < point ∧ point ≤ 16 then
    String.ofList (s.toList.take point.toNat) ++ "." ++ String.ofList (s.toList.drop point.toNat)
  else if -5 < point ∧ point ≤ 0 then "0." ++ zeros (-point) ++ s
  else
    let mantissa :=
      if length = 1 then s
      else String.ofList (s.toList.take 1) ++ "." ++ String.ofList (s.toList.drop 1)
    mantissa ++ "e" ++ toString (point - 1)

/-- The text of a finite number. -/
def text (f : Float) : String :=
  let sign := if f.toBits.toNat / (2048 * fractionCount) = 1 then "-" else ""
  let size := Binary.ofFloat f
  if size.m = 0 then sign ++ "0.0" else sign ++ size.shortest.text

end SourceDeps.Decimal

namespace SourceDeps.Text

/-- The characters with the property `White_Space`. -/
def isBlank (c : Char) : Bool :=
  ('\t' ≤ c && c ≤ '\r') || c == ' ' ||
    (c.val ≥ 0x80 &&
      (c.val == 0x85 || c.val == 0xA0 || c.val == 0x1680 ||
        (0x2000 ≤ c.val && c.val ≤ 0x200A) || c.val == 0x2028 || c.val == 0x2029 ||
        c.val == 0x202F || c.val == 0x205F || c.val == 0x3000))

/-- The characters without the white space at their end. -/
def trimRight (cs : List Char) : List Char := (cs.reverse.dropWhile isBlank).reverse

/-- The characters without the white space at both ends. -/
def trim (cs : List Char) : List Char := trimRight (cs.dropWhile isBlank)

def trimmed (s : String) : String := String.ofList (trim s.toList)

/-- An ASCII capital as a small letter; any other character as it is. -/
def lowerAscii (c : Char) : Char := if 'A' ≤ c ∧ c ≤ 'Z' then Char.ofNat (c.toNat + 32) else c

/-- A text with ASCII capitals as small letters. -/
def lowered (s : String) : String := String.ofList (s.toList.map lowerAscii)

end SourceDeps.Text

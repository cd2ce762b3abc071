namespace SourceDeps.Text

/-- A text with, for each position, the bytes and the line breaks before it. -/
structure Buffer where
  chars : Array Char
  bytes : Array Nat
  rows : Array Nat

namespace Buffer

def ofString (s : String) : Buffer :=
  let (bytes, rows, byte, row) := s.foldl
    (fun (bytes, rows, byte, row) c =>
      (bytes.push byte, rows.push row, byte + c.utf8Size, if c = '\n' then row + 1 else row))
    ((#[] : Array Nat), (#[] : Array Nat), 0, 0)
  ⟨s.toList.toArray, bytes.push byte, rows.push row⟩

def size (b : Buffer) : Nat := b.chars.size

/-- The character at a position, and the null character at the end. -/
def get (b : Buffer) (i : Nat) : Char := b.chars.getD i '\x00'

def atEnd (b : Buffer) (i : Nat) : Bool := b.chars.size ≤ i

/-- The bytes before a position. -/
def byteAt (b : Buffer) (i : Nat) : Nat := b.bytes.getD i 0

/-- The line breaks before a position. -/
def rowAt (b : Buffer) (i : Nat) : Nat := b.rows.getD i 0

/-- The first position from `i` on whose character does not satisfy `p`. -/
def skipWhile (b : Buffer) (p : Char → Bool) (i : Nat) : Nat :=
  if h : i < b.chars.size then
    if p b.chars[i] then b.skipWhile p (i + 1) else i
  else i
termination_by b.chars.size - i

theorem le_skipWhile (b : Buffer) (p : Char → Bool) (i : Nat) : i ≤ b.skipWhile p i := by
  fun_induction skipWhile b p i <;> omega

/-- Whether the characters of a list stand at a position. -/
def startsWith (b : Buffer) (i : Nat) : List Char → Bool
  | [] => true
  | c :: cs => !b.atEnd i && b.get i == c && b.startsWith (i + 1) cs

def slice (b : Buffer) (start stop : Nat) : String :=
  String.ofList (b.chars.extract start stop).toList

end Buffer

end SourceDeps.Text

namespace SourceDeps.Grammar

/-- A set of tokens: token `t` is a member when bit `t` is set. -/
structure TokenSet where
  bits : Nat
  deriving BEq, Hashable, Repr, Inhabited, DecidableEq

namespace TokenSet

def empty : TokenSet := ⟨0⟩

def singleton (t : Nat) : TokenSet := ⟨1 <<< t⟩

def contains (s : TokenSet) (t : Nat) : Bool := s.bits.testBit t

def union (s u : TokenSet) : TokenSet := ⟨s.bits ||| u.bits⟩

def inter (s u : TokenSet) : TokenSet := ⟨s.bits &&& u.bits⟩

/-- The members of one of the sets only. -/
def apart (s u : TokenSet) : TokenSet := ⟨s.bits ^^^ u.bits⟩

def insert (s : TokenSet) (t : Nat) : TokenSet := s.union (singleton t)

def ofList (ts : List Nat) : TokenSet := ts.foldl insert empty

def isEmpty (s : TokenSet) : Bool := s.bits == 0

def meets (s u : TokenSet) : Bool := s.bits &&& u.bits != 0

/-- The members below a bound, smallest first. -/
def members (s : TokenSet) (bound : Nat) : List Nat := (List.range bound).filter s.contains

theorem contains_union (s u : TokenSet) (t : Nat) :
    (s.union u).contains t = (s.contains t || u.contains t) := by
  simp [union, contains, Nat.testBit_or]

theorem contains_inter (s u : TokenSet) (t : Nat) :
    (s.inter u).contains t = (s.contains t && u.contains t) := by
  simp [inter, contains, Nat.testBit_and]

theorem contains_apart (s u : TokenSet) (t : Nat) :
    (s.apart u).contains t = (s.contains t ^^ u.contains t) := by
  simp [apart, contains, Nat.testBit_xor]

theorem contains_singleton (t u : Nat) : (singleton t).contains u = decide (t = u) := by
  rw [singleton, contains, Nat.one_shiftLeft, Nat.testBit_two_pow]

theorem contains_insert (s : TokenSet) (t u : Nat) :
    (s.insert t).contains u = (s.contains u || decide (t = u)) := by
  rw [insert, contains_union, contains_singleton]

end TokenSet

end SourceDeps.Grammar

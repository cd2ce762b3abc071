namespace SourceDeps.Parse

/-- What is known of a tree beside its children. The white space in front of its text starts at
`before`; the text itself reaches from `start` to `stop`. -/
structure Info where
  symbol : Nat
  production : Nat := 0
  before : Nat
  start : Nat
  stop : Nat
  cost : Nat := 0
  weight : Int := 0
  /-- Whether the tree makes a node of its own. -/
  visible : Bool
  /-- The nodes that the tree's children make. -/
  shown : Nat := 0
  /-- All nodes below the tree. -/
  descendants : Nat := 0
  /-- Whether the tree may stand anywhere. -/
  extra : Bool := false
  /-- Whether the tree stands for a token that is not there. -/
  missing : Bool := false
  /-- Whether the tree is a word that spells a keyword. -/
  keyword : Bool := false
  deriving Inhabited

inductive Tree where
  | node (info : Info) (children : List Tree)
  deriving Inhabited

namespace Tree

def info : Tree → Info
  | node i _ => i

def children : Tree → List Tree
  | node _ cs => cs

def isExtra (t : Tree) : Bool := t.info.extra

/-- The tree as one that may stand anywhere. -/
def asExtra : Tree → Tree
  | node i cs => node { i with extra := true } cs

mutual

/-- Trees by their symbols, then by how many children they have, then by their children. -/
def compare : Tree → Tree → Ordering
  | node i cs, node j ds =>
    ((Ord.compare i.symbol j.symbol).then (Ord.compare cs.length ds.length)).then (compareAll cs ds)

def compareAll : List Tree → List Tree → Ordering
  | c :: cs, d :: ds => (compare c d).then (compareAll cs ds)
  | _, _ => .eq

end

/-- The trees without those at their end that may stand anywhere, and these. -/
def splitExtras (ts : List Tree) : List Tree × List Tree :=
  let extras := (ts.reverse.takeWhile isExtra).reverse
  (ts.take (ts.length - extras.length), extras)

end Tree

/-- What the parts of a repair cost. -/
structure Costs where
  recovery : Nat
  missing : Nat
  skippedTree : Nat
  skippedLine : Nat
  skippedChar : Nat

/-- Every repair costs, a token left out or a part skipped costs more, and so do the lines and the
characters skipped. -/
def costs : Costs := ⟨500, 110, 100, 30, 1⟩

/-- A difference in cost, grown by the nodes read since, above which one reading beats another. -/
def decisiveDifference : Nat := 18 * costs.skippedTree

end SourceDeps.Parse

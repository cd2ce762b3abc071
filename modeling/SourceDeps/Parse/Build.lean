import SourceDeps.Parse.Language
import SourceDeps.Parse.Tree

namespace SourceDeps.Parse

open SourceDeps.Text

namespace Language

/-- The leaf for a token that starts after the white space from `before`. -/
def leaf (l : Language) (before : Nat) (t : Token) : Tree :=
  .node
    { symbol := t.terminal, before := min before t.start, start := t.start, stop := t.stop
      visible := l.isVisible t.terminal, extra := t.terminal == 0, keyword := t.keyword.isSome } []

/-- The leaf of a keyword as that of a mere word. -/
def asWord (l : Language) : Tree → Tree
  | .node i cs => .node { i with symbol := l.word, visible := l.isVisible l.word } cs

/-- The leaf for text that is no token. -/
def errorLeaf (l : Language) (before start stop : Nat) : Tree :=
  .node { symbol := l.errorSymbol, before, start, stop, visible := true } []

/-- The leaf for a token that is not there. -/
def missingLeaf (l : Language) (terminal position : Nat) : Tree :=
  .node
    { symbol := terminal, before := position, start := position, stop := position
      visible := l.isVisible terminal, missing := true
      cost := costs.missing + costs.recovery } []

/-- Whether a symbol stands for text that was not understood. -/
def isErrorSymbol (l : Language) (symbol : Nat) : Bool :=
  symbol == l.errorSymbol || symbol == l.skippedSymbol

def isError (l : Language) (t : Tree) : Bool := t.info.symbol == l.errorSymbol

/-- How many nodes a tree adds to a stack. A piece of skipped text counts though it is not seen. -/
def nodeCount (l : Language) (t : Tree) : Nat :=
  t.info.descendants + (if t.info.visible then 1 else 0) +
    if t.info.symbol == l.skippedSymbol then 1 else 0

/-- Whether the step of a production at a place gives its symbol a new name. -/
def isRenamed (l : Language) (production place : Nat) : Bool :=
  match l.automaton.productions[production]? with
  | some p =>
    match p.steps[place]? with
    | some step => step.rename.isSome
    | none => false
  | none => false

/-- What the children of a node add up to. -/
structure Sum where
  place : Nat := 0
  cost : Nat := 0
  weight : Int := 0
  shown : Nat := 0
  descendants : Nat := 0

/-- Adds a child. Under a node for skipped text every child that is seen costs. -/
def Sum.add (l : Language) (symbol : Nat) (production : Option Nat) (s : Sum) (t : Tree) : Sum :=
  let i := t.info
  let cost := s.cost + if i.symbol == l.skippedSymbol then 0 else i.cost
  let skipped :=
    if l.isErrorSymbol symbol && !i.extra && !(l.isError t && t.children.isEmpty) then
      if i.visible then costs.skippedTree else costs.skippedTree * i.shown
    else 0
  let renamed := !i.extra && match production with
    | some p => l.isRenamed p s.place
    | none => false
  { place := if i.extra then s.place else s.place + 1
    cost := cost + skipped
    weight := s.weight + i.weight
    shown := s.shown + if renamed || i.visible then 1 else i.shown
    descendants := s.descendants + i.descendants + if renamed || i.visible then 1 else 0 }

/-- The node of a symbol with its children. Without children it stands at `position`. -/
def nodeOf (l : Language) (b : Buffer) (symbol : Nat) (production : Option Nat) (position : Nat)
    (children : List Tree) : Tree :=
  let sum := children.foldl (Sum.add l symbol production) {}
  let (before, start) := match children.head? with
    | some t => (t.info.before, t.info.start)
    | none => (position, position)
  let stop := (children.getLast?.map (·.info.stop)).getD position
  let own :=
    if l.isErrorSymbol symbol then
      costs.recovery + costs.skippedChar * (b.byteAt stop - b.byteAt start) +
        costs.skippedLine * (b.rowAt stop - b.rowAt start)
    else 0
  .node
    { symbol, production := production.getD 0, before, start, stop
      cost := sum.cost + own, weight := sum.weight, visible := l.isVisible symbol
      shown := sum.shown, descendants := sum.descendants } children

/-- The node around skipped text. -/
def errorNode (l : Language) (b : Buffer) (position : Nat) (children : List Tree) (extra : Bool) :
    Tree :=
  match l.nodeOf b l.errorSymbol none position children with
  | .node i cs => .node { i with extra } cs

/-- Whether the second of two readings of one text is to be taken: the cheaper one, then the one of
more weight, then the one whose symbols come first. -/
def prefersSecond (left right : Tree) : Bool :=
  if right.info.cost < left.info.cost then true
  else if left.info.cost < right.info.cost then false
  else if left.info.weight < right.info.weight then true
  else if right.info.weight < left.info.weight then false
  else if 0 < left.info.cost then true
  else left.compare right == .gt

end Language

end SourceDeps.Parse

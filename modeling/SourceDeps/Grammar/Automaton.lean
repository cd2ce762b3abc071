import SourceDeps.Grammar.Outlook

/-! The states of a shift-reduce reader. A state is a set of items: productions with a place in them
and the tokens that may follow. What a state does on a token is settled by the rankings and grouping
sides of the grammar as far as these go. -/

namespace SourceDeps.Grammar

/-- A production that starts what a nonterminal stands for: the tokens that may follow it whatever
follows the nonterminal, and whether what follows the nonterminal may follow it too. -/
structure Opening where
  production : Nat
  follow : TokenSet
  inherits : Bool
  deriving Inhabited

/-- An entry of a ranking with its rule numbered. -/
inductive NumberedRank where
  | precedence (name : String)
  | rule (number : Nat)
  deriving DecidableEq

/-- A numbered grammar with what its states need: the tokens that each nonterminal can begin with,
for each nonterminal and symbol the productions that start the nonterminal with that symbol, and for
each place in a production the production that stands for it there. -/
structure Automaton extends Numbered where
  first : Array TokenSet
  openings : Array (Array (List Opening))
  representatives : Array (Array Nat)
  rankings : List (List NumberedRank)

/-- A production read up to a place, and the tokens that may follow it. -/
structure Item where
  production : Nat
  dot : Nat
  lookahead : TokenSet
  deriving BEq, Hashable, Inhabited

/-- A state: its items, the tokens that it can step over, and the tokens that may follow a
finished item. -/
structure State where
  kernel : Array Item
  shifts : TokenSet
  reductions : TokenSet
  deriving Inhabited

namespace State

/-- The tokens with which a state can do something. -/
def valid (s : State) : TokenSet := s.shifts.union s.reductions

end State

/-- What a state does on a token: the productions to finish, then whether to step over the token,
which for the next element of a repetition only looks ahead. -/
inductive Advance where
  | none
  | shift
  | repetition
  deriving DecidableEq

structure Actions where
  reductions : List Nat
  advance : Advance
  deriving DecidableEq

namespace Actions

def isEmpty (a : Actions) : Bool := a.reductions.isEmpty && a.advance == .none

end Actions

namespace Numbered

/-- Repeats a step until nothing changes, at most `fuel` times. -/
def stabilize {α : Type} [BEq α] (step : α → α) : Nat → α → α
  | 0, x => x
  | fuel + 1, x =>
    let y := step x
    if y == x then x else stabilize step fuel y

/-- The tokens that a symbol can begin with, given those of the nonterminals. -/
def firstOf (g : Numbered) (first : Array TokenSet) (symbol : Nat) : TokenSet :=
  if g.isNonterminal symbol then first.getD (symbol - g.firstNonterminal) .empty
  else .singleton symbol

/-- The tokens that each nonterminal can begin with. Only the start may stand for nothing. -/
def firstSets (g : Numbered) : Array TokenSet :=
  stabilize
    (fun sets => g.ofNonterminal.map fun ps =>
      ps.foldl (fun acc p =>
        match g.productions[p]?.bind (·.steps[0]?) with
        | some step => acc.union (g.firstOf sets step.symbol)
        | none => acc) .empty)
    (g.nonterminals.size + 1)
    (Array.replicate g.nonterminals.size .empty)

/-- How a nonterminal is reached at the left edge of another: the tokens that follow it there, and
whether it can end where the other ends. -/
structure Edge where
  target : Nat
  follow : Option TokenSet

/-- The nonterminals with which the productions of each nonterminal begin. -/
def edges (g : Numbered) (first : Array TokenSet) : Array (List Edge) :=
  g.ofNonterminal.map fun ps =>
    ps.toList.filterMap fun p => do
      let production ← g.productions[p]?
      let step ← production.steps[0]?
      if g.isNonterminal step.symbol then
        some
          { target := step.symbol - g.firstNonterminal
            follow := production.steps[1]?.map fun s => g.firstOf first s.symbol }
      else none

/-- For each nonterminal, whether and how it is reached at the left edge of the given one. -/
def reached (g : Numbered) (edges : Array (List Edge)) (v : Nat) :
    Array (Option (TokenSet × Bool)) :=
  let join (old : Option (TokenSet × Bool)) (new : TokenSet × Bool) : Option (TokenSet × Bool) :=
    match old with
    | some (s, b) => some (s.union new.1, b || new.2)
    | none => some new
  stabilize
    (fun acc => (List.range g.nonterminals.size).foldl
      (fun acc m =>
        match acc.getD m none with
        | none => acc
        | some here =>
          (edges.getD m []).foldl (fun acc e =>
            acc.modify e.target (join · (match e.follow with
              | some f => (f, false)
              | none => here))) acc)
      acc)
    (g.nonterminals.size + 1)
    ((Array.replicate g.nonterminals.size none).setIfInBounds v (some (.empty, true)))

/-- For a nonterminal and each symbol, the productions that start the one with the other. -/
def openingsOf (g : Numbered) (edges : Array (List Edge)) (v : Nat) : Array (List Opening) :=
  let reached := g.reached edges v
  (List.range g.nonterminals.size).foldl
    (fun table m =>
      match reached.getD m none with
      | none => table
      | some (follow, inherits) =>
        (g.ofNonterminal.getD m #[]).foldl (fun table p =>
          match g.productions[p]?.bind (·.steps[0]?) with
          | some step => table.modify step.symbol (⟨p, follow, inherits⟩ :: ·)
          | none => table) table)
    (Array.replicate g.symbolCount [])

end Numbered

namespace Source

def automaton (src : Source) : Automaton :=
  let g := src.number
  let first := g.firstSets
  let edges := g.edges first
  let ruleNumber (name : String) : Nat :=
    (g.nonterminals.findIdx? (·.name == name)).getD g.nonterminals.size
  { g with
    first := first
    openings := (Array.range g.nonterminals.size).map (g.openingsOf edges)
    representatives := g.representatives
    rankings := src.rankings.map (·.map fun
      | .precedence name => .precedence name
      | .rule name => .rule (ruleNumber name)) }

end Source

/-- Whether an entry of a ranking speaks of a precedence or of one of some rules. -/
def NumberedRank.speaksOf (rank : NumberedRank) (p : Precedence) (rules : List Nat) : Bool :=
  match rank with
  | .precedence name => p == .named name
  | .rule v => rules.contains v

namespace Automaton

/-- The step that an item meets next. -/
def nextStep? (a : Automaton) (item : Item) : Option (Step Nat) :=
  a.productions[item.production]?.bind (·.steps[item.dot]?)

/-- The step that an item has met last. -/
def lastStep? (a : Automaton) (item : Item) : Option (Step Nat) :=
  match item.dot with
  | 0 => none
  | d + 1 => a.productions[item.production]?.bind (·.steps[d]?)

def lhs (a : Automaton) (item : Item) : Nat :=
  (a.productions[item.production]?.map (·.lhs)).getD 0

def precedence (a : Automaton) (item : Item) : Precedence :=
  ((a.lastStep? item).map (·.precedence)).getD .unset

def side (a : Automaton) (item : Item) : Option Side :=
  (a.lastStep? item).bind (·.side)

def isRepetition (a : Automaton) (v : Nat) : Bool :=
  match a.nonterminals[v]? with
  | some entry => entry.repetition
  | none => false

/-- Whether an item is in the middle of its production and can go on with a token. -/
def canMove (a : Automaton) (token : Nat) (item : Item) : Bool :=
  match item.dot, a.nextStep? item with
  | 0, _ => false
  | _, some step => (a.firstOf a.first step.symbol).contains token
  | _, none => false

/-- Whether an item is at the end of its production and a token may follow it. -/
def isFinished (a : Automaton) (token : Nat) (item : Item) : Bool :=
  item.lookahead.contains token && (a.nextStep? item).isNone

def stateOf (a : Automaton) (kernel : Array Item) : State :=
  kernel.foldl
    (fun s item =>
      match a.nextStep? item with
      | some step => { s with shifts := s.shifts.union (a.firstOf a.first step.symbol) }
      | none => { s with reductions := s.reductions.union item.lookahead })
    ⟨kernel, .empty, .empty⟩

/-- The items before anything is read. -/
def startKernel (a : Automaton) : Array Item :=
  let follow := TokenSet.singleton Numbered.endOfText
  let start := a.startNonterminal - a.firstNonterminal
  let whole := a.ofNonterminal.getD start #[]
  let programs := whole.flatMap fun p =>
    match a.productions[p]?.bind (·.steps[0]?) with
    | some step => a.ofNonterminal.getD (step.symbol - a.firstNonterminal) #[]
    | none => #[]
  (programs ++ whole).map fun p => ⟨p, 0, follow⟩

/-- Adds an item to a sorted set of items, joining the tokens that may follow. -/
def addItem (items : List Item) (new : Item) : List Item :=
  match items with
  | [] => [new]
  | item :: rest =>
    if item.production == new.production && item.dot == new.dot then
      { item with lookahead := item.lookahead.union new.lookahead } :: rest
    else if new.production < item.production ||
        (new.production == item.production && new.dot < item.dot) then
      new :: item :: rest
    else item :: addItem rest new

/-- The item at a place in a production, written with the production that stands for it there. -/
def itemAt (a : Automaton) (production dot : Nat) (lookahead : TokenSet) : Item :=
  ⟨(a.representatives.getD production #[]).getD dot production, dot, lookahead⟩

/-- The items after a symbol has been read. -/
def successor (a : Automaton) (s : State) (symbol : Nat) : Array Item :=
  (s.kernel.foldl
    (fun items item =>
      match a.productions[item.production]? with
      | none => items
      | some p =>
        match p.steps[item.dot]? with
        | none => items
        | some step =>
          let items := if step.symbol == symbol then
              addItem items (a.itemAt item.production (item.dot + 1) item.lookahead)
            else items
          if a.isNonterminal step.symbol then
            let follow := match p.steps[item.dot + 1]? with
              | some next => a.firstOf a.first next.symbol
              | none => item.lookahead
            ((a.openings.getD (step.symbol - a.firstNonterminal) #[]).getD symbol []).foldl
              (fun items o =>
                let lookahead := if o.inherits then o.follow.union follow else o.follow
                addItem items (a.itemAt o.production 1 lookahead))
              items
          else items)
    []).toArray

/-- The order that one ranking gives to two sides, if it names both. -/
def rankIn (left right : NumberedRank → Bool) : List NumberedRank → Bool → Bool → Option Ordering
  | [], _, _ => none
  | rank :: rest, sawLeft, sawRight =>
    if left rank then
      if sawRight then some .lt else rankIn left right rest true sawRight
    else if right rank then
      if sawLeft then some .gt else rankIn left right rest sawLeft true
    else rankIn left right rest sawLeft sawRight

/-- Which of two sides binds tighter: numbers against each other and against zero, all else by the
first ranking that names both. -/
def compare (a : Automaton) (left : Precedence) (leftRules : List Nat)
    (right : Precedence) (rightRules : List Nat) : Ordering :=
  let ranked : Ordering :=
    (a.rankings.findSome? fun ranking =>
      rankIn (NumberedRank.speaksOf · left leftRules) (NumberedRank.speaksOf · right rightRules)
        ranking false false).getD .eq
  match left, right with
  | .level l, .level r => if l ≠ 0 ∨ r ≠ 0 then Ord.compare l r else ranked
  | .level l, .unset => if l ≠ 0 then Ord.compare l 0 else ranked
  | .unset, .level r => if r ≠ 0 then Ord.compare 0 r else ranked
  | _, _ => ranked

/-- The finished items of one state on one token that bind tightest. -/
structure Finished where
  productions : List Nat := []
  precedence : Precedence := .unset
  rules : List Nat := []
  left : Bool := false
  right : Bool := false
  unsided : Bool := false

/-- Takes one more finished item into account. -/
def Finished.add (a : Automaton) (f : Finished) (item : Item) : Finished :=
  let precedence := a.precedence item
  let lhs := a.lhs item
  let put (f : Finished) : Finished :=
    { productions := f.productions ++ [item.production]
      precedence := precedence
      rules := if f.rules.contains lhs then f.rules else lhs :: f.rules
      left := f.left || a.side item == some .left
      right := f.right || a.side item == some .right
      unsided := f.unsided || a.side item == none }
  if f.productions.isEmpty then put f
  else match a.compare precedence [lhs] f.precedence f.rules with
    | .gt => put {}
    | .eq => put f
    | .lt => f

/-- Whether all of the items build one nonterminal, which stands for a repetition. -/
def sameRepetition (a : Automaton) (items : List Item) : Bool :=
  match items with
  | [] => false
  | item :: rest => a.isRepetition (a.lhs item) && rest.all fun other => a.lhs other == a.lhs item

/-- What remains of finishing and stepping on, given how the items that can step on compare with
the finished ones: the tighter side wins, between equals the grouping side of the finished items
decides, and what is left open stays open. -/
def settle (f : Finished) (orders : List Ordering) : Actions :=
  match orders.contains .gt, orders.contains .lt with
  | true, false => ⟨[], .shift⟩
  | false, true => ⟨f.productions, .none⟩
  | true, true => ⟨f.productions, .shift⟩
  | false, false =>
    match f.left, f.unsided, f.right with
    | true, false, false => ⟨f.productions, .none⟩
    | false, false, true => ⟨[], .shift⟩
    | _, _, _ => ⟨f.productions, .shift⟩

def actions (a : Automaton) (s : State) (token : Nat) : Actions :=
  let finished := s.kernel.toList.filter (a.isFinished token)
  let f := finished.foldl (Finished.add a) {}
  if !s.shifts.contains token then ⟨f.productions, .none⟩
  else if f.productions.isEmpty then ⟨[], .shift⟩
  else
    let moving := s.kernel.toList.filter (a.canMove token)
    if a.sameRepetition (moving ++ finished) then ⟨f.productions, .repetition⟩
    else settle f (moving.map fun item =>
      a.compare (a.precedence item) [a.lhs item] f.precedence f.rules)

end Automaton

end SourceDeps.Grammar

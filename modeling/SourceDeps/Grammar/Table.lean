import SourceDeps.Grammar.Automaton

/-! States with the same items that differ only in what may follow those items are made one, where
that changes neither what a state does on a token that both know nor which tokens are looked for. -/

namespace SourceDeps.Grammar

/-- The state that stands for none. -/
def noState : Nat := 0

def firstState : Nat := 1

/-- Numbered states, and for each the numbers of the states after the symbols. -/
structure Table where
  states : Array State
  moves : Array (Array Nat)

namespace Table

/-- The state after a symbol, and `noState` if there is none. -/
def next (t : Table) (state symbol : Nat) : Nat := (t.moves.getD state #[]).getD symbol noState

end Table

/-- States found so far, and the symbols that those visited step over with the states after them. -/
structure Exploration where
  states : Array State
  numbers : Std.HashMap (Array Item) Nat
  moves : Array (List (Nat × Nat))

/-- What keeps two states apart beside what they do. The watched tokens say where a token is looked
for in a way of its own: states that are merged know the same of them. The guard is a token that
looks like the guarded ones: a state that knows the guard does not come to know one of these. -/
structure Distinctions where
  watched : TokenSet
  guard : Nat
  guarded : TokenSet

/-- Two items of like states as one. -/
def Item.join (i j : Item) : Item := { i with lookahead := i.lookahead.union j.lookahead }

namespace Automaton

/-- For each nonterminal the symbols with which it can start. -/
def starts (a : Automaton) : Array TokenSet :=
  a.openings.map fun table =>
    .ofList ((List.range table.size).filter fun symbol => !(table.getD symbol []).isEmpty)

/-- The symbols that a state can step over. -/
def symbols (a : Automaton) (starts : Array TokenSet) (s : State) : TokenSet :=
  s.kernel.foldl
    (fun acc item => match a.nextStep? item with
      | some step =>
        let acc := acc.insert step.symbol
        if a.isNonterminal step.symbol then
          acc.union (starts.getD (step.symbol - a.firstNonterminal) .empty)
        else acc
      | none => acc)
    .empty

/-- Finds the states after the next state. -/
def visit (a : Automaton) (starts : Array TokenSet) (s : State) (x : Exploration) : Exploration :=
  let (x, moves) := ((a.symbols starts s).members a.symbolCount).foldl
    (fun (acc : Exploration × List (Nat × Nat)) symbol =>
      let (x, moves) := acc
      let kernel := a.successor s symbol
      match x.numbers[kernel]? with
      | some n => (x, (symbol, n) :: moves)
      | none =>
        let n := x.states.size
        ({ x with
            states := x.states.push (a.stateOf kernel)
            numbers := x.numbers.insert kernel n }, (symbol, n) :: moves))
    (x, [])
  { x with moves := x.moves.push moves.reverse }

/-- Visits the states in the order in which they are found, at most `fuel` of them. -/
def exploreFrom (a : Automaton) (starts : Array TokenSet) : Nat → Exploration → Exploration
  | 0, x => x
  | fuel + 1, x =>
    match x.states[x.moves.size]? with
    | none => x
    | some s => exploreFrom a starts fuel (a.visit starts s x)

def maxStates : Nat := 65536

/-- All states of an automaton, the state before anything is read in front. -/
def explore (a : Automaton) : Exploration :=
  let start := a.stateOf a.startKernel
  a.exploreFrom a.starts maxStates ⟨#[start], (∅ : Std.HashMap _ _).insert start.kernel 0, #[]⟩

/-- The tokens known to two states of one core that may follow a finished item of one of them but
not the same item of the other. -/
def disputed (a : Automaton) (s t : State) : TokenSet :=
  let apart : TokenSet := (s.kernel.zip t.kernel).foldl
    (fun acc (i, j) =>
      if (a.nextStep? i).isNone then acc.union (i.lookahead.apart j.lookahead) else acc)
    .empty
  apart.inter (s.valid.inter t.valid)

/-- Whether two states of one core are to be kept apart. -/
def conflict (a : Automaton) (d : Distinctions) (s t : State) : Bool :=
  let apart := s.valid.apart t.valid
  let gains (s t : State) := s.valid.contains d.guard && (apart.inter t.valid).meets d.guarded
  apart.meets d.watched || gains s t || gains t s ||
    (let disputed := a.disputed s t
     !disputed.isEmpty && (disputed.members a.terminals.size).any fun token =>
      a.actions s token != a.actions t token)

end Automaton

/-- Puts a member into the first class with none of whose members it conflicts. -/
def place {α : Type} (conflict : α → α → Bool) (x : α) : List (List α) → List (List α)
  | [] => [[x]]
  | c :: cs => if c.any (conflict x) then c :: place conflict x cs else (x :: c) :: cs

/-- The numbers of equal keys made equal, counted from zero in the order of their first use. -/
def renumber {κ : Type} [BEq κ] [Hashable κ] (keys : Array κ) : Array Nat × Nat :=
  let (numbers, known) := keys.foldl
    (fun (acc : Array Nat × Std.HashMap κ Nat) key =>
      let (numbers, known) := acc
      match known[key]? with
      | some n => (numbers.push n, known)
      | none =>
        let n := known.size
        (numbers.push n, known.insert key n))
    (#[], ∅)
  (numbers, known.size)

/-- Splits classes until states of one class have their next states in one class. -/
def refine (moves : Array (List (Nat × Nat))) : Nat → Array Nat → Nat → Array Nat × Nat
  | 0, classes, count => (classes, count)
  | fuel + 1, classes, count =>
    let keys := classes.zipWith (fun c row => c :: row.map fun (_, n) => classes.getD n 0) moves
    let (finer, n) := renumber keys
    if n == count then (classes, count) else refine moves fuel finer n

namespace Automaton

/-- The class of each state: states of one core without conflict. -/
def classes (a : Automaton) (d : Distinctions) (x : Exploration) : Array Nat × Nat :=
  let (cores, count) := renumber (x.states.map fun s =>
    s.kernel.toList.map fun item => (item.production, item.dot))
  let members : Array (List (List (Nat × State))) :=
    (cores.zip x.states).zipIdx.foldl
      (fun acc ((core, s), i) =>
        acc.modify core (place (fun p q => a.conflict d p.2 q.2) (i, s)))
      (Array.replicate count [])
  let split := members.foldl
    (fun (acc : Array Nat × Nat) groups => groups.foldl
      (fun (acc : Array Nat × Nat) group =>
        (group.foldl (fun numbers (i, _) => numbers.setIfInBounds i acc.2) acc.1, acc.2 + 1)) acc)
    (Array.replicate x.states.size 0, 0)
  let (numbers, count) := renumber split.1
  refine x.moves x.states.size numbers count

/-- Whether a production of one step makes a node that nothing shows: it is hidden, and neither it
nor its part has a label, a new name or a weight. -/
def isPassage (a : Automaton) (labelled : Array Bool) (renamed : TokenSet) (production : Nat) :
    Bool :=
  match a.productions[production]? with
  | some ⟨lhs, #[step], 0⟩ =>
    (a.nonterminals.getD lhs default).isAuxiliary && !renamed.contains (lhs + a.firstNonterminal) &&
      step.label.isNone && step.rename.isNone &&
      !(a.isNonterminal step.symbol && labelled.getD (step.symbol - a.firstNonterminal) false)
  | _ => false

/-- The symbol that a state makes of the symbol just read, if it does that on all tokens and nothing
shows that it does. -/
def passage? (a : Automaton) (isPassage : Nat → Bool) (s : State) : Option Nat :=
  if s.shifts.isEmpty then
    let made := (s.reductions.members a.terminals.size).flatMap fun token =>
      (a.actions s token).reductions.map fun p =>
        if isPassage p then (a.productions[p]?).map (·.lhs + a.firstNonterminal) else none
    match made with
    | some symbol :: rest => if rest.all (· == some symbol) then some symbol else none
    | _ => none
  else none

/-- Goes from a state on to the one after the symbol that it would make, as often as it would. -/
def passOver (passages : Array (Option Nat)) (row : Array Nat) : Nat → Nat → Nat
  | 0, n => n
  | fuel + 1, n =>
    match passages.getD n none with
    | some symbol =>
      let next := row.getD symbol noState
      if next == noState then n else passOver passages row fuel next
    | none => n

/-- The states of an automaton with like states made one. A state that would only make a symbol of
the last one is passed over. -/
def table (a : Automaton) (d : Distinctions) : Table :=
  let x := a.explore
  let (classes, count) := a.classes d x
  let kernels : Array (Array Item) := (classes.zip x.states).foldl
    (fun acc (c, s) => acc.modify c fun kernel =>
      if kernel.isEmpty then s.kernel else kernel.zipWith Item.join s.kernel)
    (Array.replicate count #[])
  let rows : Array (Array Nat) := (classes.zip x.moves).foldl
    (fun acc (c, row) => acc.modify c fun moves =>
      if moves.isEmpty then
        row.foldl
          (fun moves (symbol, n) => moves.setIfInBounds symbol (classes.getD n 0 + firstState))
          (Array.replicate a.symbolCount noState)
      else moves)
    (Array.replicate count #[])
  let states := #[⟨#[], .empty, .empty⟩] ++ kernels.map a.stateOf
  let renamed : TokenSet := .ofList (a.productions.toList.flatMap fun p =>
    (p.steps.toList.filter (·.rename.isSome)).map (·.symbol))
  let passages := states.map (a.passage? (a.isPassage a.labelled renamed))
  { states
    moves := #[#[]] ++ rows.map fun row => row.map (passOver passages row a.nonterminals.size) }

end Automaton

end SourceDeps.Grammar

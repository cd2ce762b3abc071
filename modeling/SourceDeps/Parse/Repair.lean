import SourceDeps.Parse.Reduce

/-! A reading that cannot go on first finishes whatever it can. Then it is tried whether one missing
token would help. Then text is skipped, either before the place or from it on. -/

namespace SourceDeps.Parse

open SourceDeps.Grammar SourceDeps.Text

/-- Takes the trees of a finished text off the stack, and keeps the best of them and the tree that
was finished before. -/
def accept (l : Language) (b : Buffer) (version : Nat) (lookahead : Tree) : ParseM Unit := do
  pushTree l version (some lookahead) startState
  for slice in ← popAll version do
    let trees := slice.trees
    let after := (trees.reverse.takeWhile Tree.isExtra).reverse
    match (trees.take (trees.length - after.length)).getLast? with
    | none => pure ()
    | some tree =>
      let before := trees.take (trees.length - after.length - 1)
      let i := tree.info
      let production := if l.isErrorSymbol i.symbol then none else some i.production
      let root := l.nodeOf b i.symbol production i.stop (before ++ tree.children ++ after)
      modify fun m => { m with
        accepted := m.accepted + 1
        finished := match m.finished with
          | none => some root
          | some old => if Language.prefersSecond old root then some root else some old }
  removeVersion ((← versionCount) - 1)
  haltVersion version

/-- What finishing a production makes: the nonterminal and the number of its parts. There is nothing
to be made by the production of the whole text. -/
def Language.made? (l : Language) (production : Nat) : Option (Nat × Nat) := do
  let p ← l.automaton.productions[production]?
  let symbol := p.lhs + l.automaton.firstNonterminal
  if symbol == l.automaton.startNonterminal || p.steps.isEmpty then none
  else some (p.lhs, p.steps.size)

/-- The productions that a state can finish before some token, one for each thing that they make,
and whether it can step over one of the tokens. -/
def possible (l : Language) (state : Nat) (tokens : List Nat) : ParseM (List Nat × Bool) := do
  let mut productions : List Nat := []
  let mut steps := false
  for t in tokens do
    if state == errorState then
      if l.recoverable.contains t && !l.extras.contains t then
        steps := true
    else
      let a ← actionsOf l state t
      if a.advance == .shift then
        steps := true
      for p in a.reductions do
        match l.made? p with
        | some made =>
          if !(productions.any fun q => l.made? q == some made) then
            productions := productions ++ [p]
        | none => pure ()
  return (productions, steps)

/-- All tokens of the language but the end of the text. -/
def allTokens (l : Language) : List Nat :=
  (List.range l.automaton.terminals.size).drop 1

/-- Finishes whatever a reading can finish, before one token or before any. Each way to do it is a
reading of its own. Says whether one of them can then step over the token. -/
def reduceAll (l : Language) (b : Buffer) (start : Nat) (token : Option Nat) : ParseM Bool := do
  let before ← versionCount
  let tokens := match token with
    | some t => [t]
    | none => allTokens l
  let rec go : Nat → Nat → Nat → Bool → ParseM Bool
    | 0, _, _, can => return can
    | fuel + 1, turn, version, can => do
      let count ← versionCount
      if count ≤ version then return can
      let mut merged := false
      for j in List.range version do
        if before ≤ j && !merged then
          merged ← merge l j version
      if merged then go fuel (turn + 1) version can
      else
        let state := (← topOf version).state
        let (productions, steps) ← possible l state tokens
        let mut last : Option Nat := none
        for p in productions do
          last ← reduce l b version p
        let next := if version == start then count else version + 1
        if steps then go fuel (turn + 1) next true
        else
          match last with
          | some v =>
            if turn < maxVersions then
              renumber v version
              go fuel (turn + 1) version can
            else
              if token.isSome then removeVersion version
              go fuel (turn + 1) next can
          | none =>
            if token.isSome then removeVersion version
            go fuel (turn + 1) next can
  go 1000 0 start false

/-- Goes back to an earlier state and wraps what was read since into an error node. -/
def returnTo (l : Language) (b : Buffer) (version depth goal : Nat) : ParseM Bool := do
  let slices ← popCount version depth
  let mut previous : Option Nat := none
  for slice in slices do
    if previous != some slice.version then
      if (← topOf slice.version).state != goal then
        haltVersion slice.version
      else
        let inner := match ← popError l slice.version with
          | t :: _ => t.children
          | [] => []
        let (trees, extras) := Tree.splitExtras (inner ++ slice.trees)
        if !trees.isEmpty then
          let position := (← topOf slice.version).position
          pushTree l slice.version (some (l.errorNode b position trees true)) goal
        for t in extras do
          pushTree l slice.version (some t) goal
        previous := some slice.version
  return previous.isSome

/-- Looks for an earlier state that can go on with a token, and returns to the nearest one. -/
def returnToSome (l : Language) (b : Buffer) (version : Nat) (lookahead : Tree) :
    List Refuge → ParseM Bool
  | [] => return false
  | r :: rest => do
    let position := (← topOf version).position
    if r.state == errorState || r.position == position then
      returnToSome l b version lookahead rest
    else
      let depth := if 0 < (← countSinceError version) then r.depth + 1 else r.depth
      let mut wouldMerge := false
      for v in List.range (← versionCount) do
        let top ← topOf v
        if top.state == r.state && top.position == position then
          wouldMerge := true
      if wouldMerge then returnToSome l b version lookahead rest
      else
        let cost := (← costOf version) + r.depth * costs.skippedTree +
          (b.byteAt position - b.byteAt r.position) * costs.skippedChar +
          (b.rowAt position - b.rowAt r.position) * costs.skippedLine
        if ← betterExists version cost then return false
        else if hasActions l r.state lookahead.info.symbol then
          if ← returnTo l b version depth r.state then return true
          else returnToSome l b version lookahead rest
        else returnToSome l b version lookahead rest

/-- Drops the readings from `first` on that do not go on. -/
def dropInactive : Nat → Nat → ParseM Unit
  | 0, _ => return
  | fuel + 1, first => do
    if (← versionCount) ≤ first then return
    if ← isActive first then dropInactive fuel (first + 1)
    else
      removeVersion first
      dropInactive fuel first

/-- Skips a token: it joins the text that is being skipped. -/
def skipToken (l : Language) (b : Buffer) (version : Nat) (lookahead : Tree) : ParseM Unit := do
  let lookahead := match lookahead with
    | .node i cs => .node { i with extra := i.extra || l.extras.contains i.symbol } cs
  let position := (← topOf version).position
  let piece := l.nodeOf b l.skippedSymbol none position [lookahead]
  if 0 < (← countSinceError version) then
    match ← popCount version 1 with
    | slice :: rest =>
      for _ in rest do
        removeVersion (slice.version + 1)
      renumber slice.version version
      let whole := l.nodeOf b l.skippedSymbol none position (slice.trees ++ [piece])
      pushTree l version (some whole) errorState
    | [] => pushTree l version (some piece) errorState
  else pushTree l version (some piece) errorState

/-- Deals with a token while text is being skipped. -/
def recover (l : Language) (b : Buffer) (version : Nat) (lookahead : Tree) : ParseM Unit := do
  let before ← versionCount
  let refuges := ((← headAt version).refuges).getD []
  let returned ←
    if l.isError lookahead then pure false
    else returnToSome l b version lookahead refuges
  dropInactive 1000 before
  if returned && maxVersions < (← versionCount) then
    haltVersion version
  else if lookahead.info.symbol == Numbered.endOfText then
    let position := (← topOf version).position
    pushTree l version (some (l.errorNode b position [] false)) startState
    accept l b version lookahead
  else
    let i := lookahead.info
    let cost := (← costOf version) + costs.skippedTree +
      (b.byteAt i.stop - b.byteAt i.before) * costs.skippedChar +
      (b.rowAt i.stop - b.rowAt i.before) * costs.skippedLine
    if ← betterExists version cost then haltVersion version
    else skipToken l b version lookahead

/-- Tries the tokens in turn: whether one of them, put in before the lookahead, lets a reading go
on. -/
def insertMissing (l : Language) (b : Buffer) (version : Nat) (lookahead : Tree) :
    List Nat → ParseM Bool
  | [] => return false
  | t :: rest => do
    let state := (← topOf version).state
    let after ←
      if state == errorState || l.extras.contains t then pure errorState
      else if ((← actionsOf l state t).advance) == .none then pure errorState
      else pure (successor l state t)
    if after == errorState || after == state then insertMissing l b version lookahead rest
    else if (← actionsOf l after lookahead.info.symbol).reductions.isEmpty then
      insertMissing l b version lookahead rest
    else
      let position := (← topOf version).position
      let copy ← copyVersion version
      pushTree l copy (some (l.missingLeaf t position)) after
      let symbol := lookahead.info.symbol
      if ← reduceAll l b copy (if symbol == Numbered.endOfText then none else some symbol) then
        return true
      else insertMissing l b version lookahead rest

/-- Starts to deal with an error: finishes what can be finished, tries a missing token, and marks
the error on top of the stack. -/
def handleError (l : Language) (b : Buffer) (version : Nat) (lookahead : Tree) : ParseM Unit := do
  let previous ← versionCount
  let _ ← reduceAll l b version none
  let count ← versionCount
  let mut inserted := false
  for v in version :: (List.range count).drop previous do
    if !inserted then
      inserted ← insertMissing l b v lookahead (allTokens l)
    pushTree l v none errorState
  for _ in (List.range count).drop previous do
    let _ ← merge l version previous
  recordRefuges version
  recover l b version lookahead

end SourceDeps.Parse

import SourceDeps.Parse.Machine

namespace SourceDeps.Parse

open SourceDeps.Grammar SourceDeps.Text

/-- The most readings that are followed from one token to the next. -/
def maxVersions : Nat := 6

/-- How many more there may be for a while. -/
def spareVersions : Nat := 4

/-- The node for one of several ways to build it: the children that are preferred, and the trees
that stand after the node. -/
def chooseNode (l : Language) (b : Buffer) (symbol production position : Nat)
    (ways : List (List Tree)) : Tree × List Tree :=
  let build (trees : List Tree) : Tree × List Tree :=
    let (children, extras) := Tree.splitExtras trees
    (l.nodeOf b symbol (some production) position children, extras)
  match ways with
  | [] => build []
  | first :: rest =>
    rest.foldl
      (fun best trees =>
        let other := build trees
        if Language.prefersSecond best.1 other.1 then other else best)
      (build first)

/-- The slices of one reading together. -/
def groupSlices : List Slice → List (Nat × List (List Tree))
  | [] => []
  | s :: rest =>
    match groupSlices rest with
    | (v, ways) :: groups =>
      if v == s.version then (v, s.trees :: ways) :: groups
      else (s.version, [s.trees]) :: (v, ways) :: groups
    | [] => [(s.version, [s.trees])]

/-- Merges a reading into the first earlier one with which it can be one, but not into that from
which it comes. -/
def mergeInto (l : Language) (version source : Nat) : ParseM Bool := do
  for v in List.range version do
    if v != source then
      if ← merge l v version then return true
  return false

/-- Finishes a production on a reading's stack. Each way down the stack makes a new reading; the
first of them is given, if there is one. -/
def reduce (l : Language) (b : Buffer) (version production : Nat) : ParseM (Option Nat) := do
  match l.automaton.productions[production]? with
  | none => return none
  | some p =>
    let symbol := p.lhs + l.automaton.firstNonterminal
    let before ← versionCount
    let halted := ((← get).heads.filter fun h => match h.status with
      | .halted => true
      | _ => false).size
    let slices ← popCount version p.steps.size
    let mut removed := 0
    for (sliceVersion, ways) in groupSlices slices do
      let v := sliceVersion - removed
      if maxVersions + spareVersions + halted < v then
        removeVersion v
        removed := removed + 1
      else
        let below ← topOf v
        let (tree, extras) := chooseNode l b symbol production below.position ways
        let next := successor l below.state symbol
        let tree := match tree with
          | .node i cs => .node { i with weight := i.weight + p.weight } cs
        pushTree l v (some tree) next
        for t in extras do
          pushTree l v (some t) next
        if ← mergeInto l v version then
          removed := removed + 1
    return if before < (← versionCount) then some before else none

/-- What decides between two readings. -/
structure Standing where
  cost : Nat
  count : Nat
  weight : Int
  inError : Bool

/-- How two readings compare: one beats the other, or is merely better, or they are equal. -/
inductive Verdict where
  | takeLeft
  | preferLeft
  | equal
  | preferRight
  | takeRight
  deriving DecidableEq

def Standing.compare (a b : Standing) : Verdict :=
  if !a.inError && b.inError then
    if a.cost < b.cost then .takeLeft else .preferLeft
  else if a.inError && !b.inError then
    if b.cost < a.cost then .takeRight else .preferRight
  else if a.cost < b.cost then
    if decisiveDifference < (b.cost - a.cost) * (1 + a.count) then .takeLeft else .preferLeft
  else if b.cost < a.cost then
    if decisiveDifference < (a.cost - b.cost) * (1 + b.count) then .takeRight else .preferRight
  else if b.weight < a.weight then .preferLeft
  else if a.weight < b.weight then .preferRight
  else .equal

def standingOf (version : Nat) : ParseM Standing := do
  let cost ← costOf version
  let paused ← isPaused version
  let top ← topOf version
  let count ← countSinceError version
  return {
    cost := cost + if paused then costs.skippedTree else 0
    count
    weight := top.weight
    inError := paused || top.state == errorState }

/-- Whether some reading at least as far on would beat a version with the given cost. -/
def betterExists (version : Nat) (cost : Nat) : ParseM Bool := do
  match (← get).finished with
  | some t => if t.info.cost ≤ cost then return true
  | none => pure ()
  let top ← topOf version
  let own : Standing :=
    { cost, count := ← countSinceError version, weight := top.weight, inError := false }
  for v in List.range (← versionCount) do
    if v != version && (← isActive v) && top.position ≤ (← topOf v).position then
      match own.compare (← standingOf v) with
      | .takeRight => return true
      | .preferRight => if ← canMerge v version then return true
      | _ => pure ()
  return false

def swapVersions (v w : Nat) : ParseM Unit := do
  let a ← headAt v
  let b ← headAt w
  modify fun m => { m with heads := (m.heads.setIfInBounds v b).setIfInBounds w a }

/-- Compares reading `i`, which stands as said, with reading `j` and those after it, up to `i`. The
result says where reading `i` is and whether it is gone; earlier readings that are beaten go too. -/
def compareBefore (l : Language) : Nat → Standing → Nat → Nat → ParseM (Nat × Bool)
  | 0, _, i, _ => return (i, false)
  | fuel + 1, own, i, j => do
    if i ≤ j then return (i, false)
    match (← standingOf j).compare own with
    | .takeLeft =>
      removeVersion i
      return (i, true)
    | .preferLeft | .equal =>
      if ← merge l j i then return (i, true)
      else compareBefore l fuel own i (j + 1)
    | .preferRight =>
      if ← merge l j i then return (i, true)
      else
        swapVersions i j
        compareBefore l fuel own i (j + 1)
    | .takeRight =>
      removeVersion j
      compareBefore l fuel own (i - 1) j

/-- Drops readings that are halted, beaten or the same as another, best first. Gives the least cost
of a reading that is not in an error. -/
def dropBeaten (l : Language) : Nat → Nat → Option Nat → ParseM (Option Nat)
  | 0, _, least => return least
  | fuel + 1, i, least => do
    if (← versionCount) ≤ i then return least
    if ← isHalted i then
      removeVersion i
      dropBeaten l fuel i least
    else
      let own ← standingOf i
      let least := if own.inError then least else some (min own.cost (least.getD own.cost))
      let (i, gone) ← compareBefore l 1000 own i 0
      dropBeaten l fuel (if gone then i else i + 1) least

end SourceDeps.Parse

import SourceDeps.Parse.Build

/-! Several readings of a text are followed side by side; each is a stack of trees, and stacks that
share a bottom or meet at the top share their nodes. -/

namespace SourceDeps.Parse

open SourceDeps.Grammar SourceDeps.Text

/-- A way down from a node of a stack: over a tree, or over nothing where an error was met. -/
structure Link where
  target : Nat
  tree : Option Tree

/-- A node of the stacks: the state there, the position in the text, the ways down, and what the
trees below add up to. -/
structure StackNode where
  state : Nat
  position : Nat
  links : List Link
  cost : Nat
  count : Nat
  weight : Int
  deriving Inhabited

/-- A place in a stack to which a reading might return after an error. -/
structure Refuge where
  position : Nat
  depth : Nat
  state : Nat

inductive Status where
  | active
  | paused (lookahead : Tree)
  | halted

/-- One reading: its top node, whether it goes on, the nodes it had at its last error, and the
places to which it might return. -/
structure Head where
  node : Nat
  status : Status := .active
  countAtError : Nat := 0
  refuges : Option (List Refuge) := none
  deriving Inhabited

/-- The number of the state that skips text, which is that of no state of the language. -/
def errorState : Nat := noState

/-- The number of the state before anything is read. -/
def startState : Nat := firstState

/-- What states are known to do, the stacks, the readings, and the best finished tree. -/
structure Machine where
  actions : Std.HashMap Nat Actions
  nodes : Array StackNode
  heads : Array Head
  finished : Option Tree
  accepted : Nat

abbrev ParseM := StateM Machine

namespace Machine

def start : Machine :=
  { actions := ∅
    nodes := #[⟨startState, 0, [], 0, 0, 0⟩]
    heads := #[{ node := 0 }]
    finished := none
    accepted := 0 }

end Machine

def stateOf (l : Language) (number : Nat) : State := l.table.states.getD number default

/-- The state after a symbol; the state that skips text if there is none. -/
def successor (l : Language) (state symbol : Nat) : Nat := l.table.next state symbol

def actionsOf (l : Language) (state token : Nat) : ParseM Actions := do
  let key := state * l.automaton.symbolCount + token
  match (← get).actions[key]? with
  | some a => return a
  | none =>
    let a := l.automaton.actions (stateOf l state) token
    modify fun m => { m with actions := m.actions.insert key a }
    return a

def hasActions (l : Language) (state token : Nat) : Bool :=
  if state == errorState then l.recoverable.contains token
  else (stateOf l state).valid.contains token || l.extras.contains token

def nodeAt (i : Nat) : ParseM StackNode := do
  return (← get).nodes.getD i default

def headAt (version : Nat) : ParseM Head := do
  return (← get).heads.getD version default

def topOf (version : Nat) : ParseM StackNode := do
  nodeAt (← headAt version).node

def modifyHead (version : Nat) (f : Head → Head) : ParseM Unit :=
  modify fun m => { m with heads := m.heads.modify version f }

def versionCount : ParseM Nat := do
  return (← get).heads.size

/-- Takes a reading away; those after it move up. -/
def removeVersion (version : Nat) : ParseM Unit :=
  modify fun m => { m with heads := m.heads.eraseIdxIfInBounds version }

/-- Puts a later reading in the place of an earlier one. -/
def renumber (source target : Nat) : ParseM Unit := do
  if source != target then
    let old ← headAt target
    let new ← headAt source
    let new := match new.refuges with
      | some _ => new
      | none => { new with refuges := old.refuges }
    modify fun m => { m with heads := (m.heads.setIfInBounds target new).eraseIdxIfInBounds source }

/-- Adds a reading that starts as a copy of another. -/
def copyVersion (version : Nat) : ParseM Nat := do
  let head ← headAt version
  let n ← versionCount
  modify fun m => { m with heads := m.heads.push { head with refuges := none } }
  return n

def haltVersion (version : Nat) : ParseM Unit :=
  modifyHead version fun h => { h with status := .halted }

/-- Puts a tree, or the mark of an error, on top of a reading's stack. -/
def pushTree (l : Language) (version : Nat) (tree : Option Tree) (state : Nat) : ParseM Unit := do
  let head ← headAt version
  let below ← nodeAt head.node
  let node : StackNode := match tree with
    | none => { below with state, links := [⟨head.node, none⟩] }
    | some t =>
      { state
        position := t.info.stop
        links := [⟨head.node, some t⟩]
        cost := below.cost + t.info.cost
        count := below.count + l.nodeCount t
        weight := below.weight + t.info.weight }
  let n := (← get).nodes.size
  modify fun m => { m with nodes := m.nodes.push node }
  modifyHead version fun h =>
    { h with
      node := n
      countAtError := if tree.isNone then node.count else h.countAtError }

/-- What an error costs that a reading has met but not yet passed. -/
def costOf (version : Nat) : ParseM Nat := do
  let head ← headAt version
  let node ← nodeAt head.node
  let paused := match head.status with
    | .paused _ => true
    | _ => false
  let atError := node.state == errorState && match node.links.head? with
    | some link => link.tree.isNone
    | none => true
  return node.cost + if paused || atError then costs.recovery else 0

/-- The nodes that a reading has gained since its last error. -/
def countSinceError (version : Nat) : ParseM Nat := do
  let head ← headAt version
  let node ← nodeAt head.node
  if node.count < head.countAtError then
    modifyHead version fun h => { h with countAtError := node.count }
    return 0
  else
    return node.count - head.countAtError

def isActive (version : Nat) : ParseM Bool := do
  match (← headAt version).status with
  | .active => return true
  | _ => return false

def isPaused (version : Nat) : ParseM Bool := do
  match (← headAt version).status with
  | .paused _ => return true
  | _ => return false

def isHalted (version : Nat) : ParseM Bool := do
  match (← headAt version).status with
  | .halted => return true
  | _ => return false

/-- Whether two trees stand for the same symbol over the same text. -/
def sameOutline (left right : Option Tree) : Bool :=
  match left, right with
  | some t, some u =>
    t.info.symbol == u.info.symbol &&
      ((0 < t.info.cost && 0 < u.info.cost) ||
        (t.info.before == u.info.before && t.info.start == u.info.start &&
          t.info.stop == u.info.stop && t.children.length == u.children.length &&
          t.info.extra == u.info.extra))
  | none, none => true
  | _, _ => false

/-- The most ways down that a node has. -/
def maxLinks : Nat := 8

/-- What a link does to a node that has other links. -/
inductive LinkFate where
  | replace (place : Nat)
  | drop
  | deepen (target : Nat)
  | add

/-- Compares a link with those of a node: the same way down over the same outline is one link, of
which the tree of more weight stays; the same outline over nodes that could be one makes them
one. -/
def linkFate (link : Link) (weight : Int) : List (Link × StackNode) → StackNode → Nat → LinkFate
  | [], _, _ => .add
  | (old, oldTarget) :: rest, target, place =>
    if sameOutline old.tree link.tree then
      if old.target == link.target then
        let oldWeight := (old.tree.map (·.info.weight)).getD 0
        if oldWeight < weight then .replace place else .drop
      else if oldTarget.state == target.state && oldTarget.position == target.position &&
          oldTarget.cost == target.cost then .deepen old.target
      else linkFate link weight rest target (place + 1)
    else linkFate link weight rest target (place + 1)

/-- Adds a way down to a node. -/
def addLink (l : Language) (fuel : Nat) (node : Nat) (link : Link) : ParseM Unit := do
  match fuel with
  | 0 => return
  | fuel + 1 =>
    if link.target == node then return
    let here ← nodeAt node
    let target ← nodeAt link.target
    let mut olds : List (Link × StackNode) := []
    for old in here.links do
      olds := olds ++ [(old, ← nodeAt old.target)]
    let weight := (link.tree.map (·.info.weight)).getD 0
    let total := target.weight + weight
    match linkFate link weight olds target 0 with
    | .drop => return
    | .replace place =>
      modify fun m => { m with
        nodes := m.nodes.modify node fun n =>
          { n with links := n.links.set place link, weight := total } }
    | .deepen other =>
      for below in target.links do
        addLink l fuel other below
      modify fun m => { m with
        nodes := m.nodes.modify node fun n => { n with weight := max n.weight total } }
    | .add =>
      if here.links.length < maxLinks then
        modify fun m => { m with
          nodes := m.nodes.modify node fun n =>
            { n with
              links := n.links ++ [link]
              count := max n.count (target.count + (link.tree.map l.nodeCount).getD 0)
              weight := max n.weight total } }

/-- Whether two readings have come to the same state at the same place at the same cost. -/
def canMerge (v w : Nat) : ParseM Bool := do
  if !(← isActive v) || !(← isActive w) then return false
  let a ← topOf v
  let b ← topOf w
  return a.state == b.state && a.position == b.position && a.cost == b.cost

/-- Makes two readings one where that can be done. -/
def merge (l : Language) (v w : Nat) : ParseM Bool := do
  if !(← canMerge v w) then return false
  let node := (← headAt v).node
  let other ← topOf w
  for link in other.links do
    addLink l 64 node link
  let top ← nodeAt node
  if top.state == errorState then
    modifyHead v fun h => { h with countAtError := top.count }
  removeVersion w
  return true

/-- A way down a stack: the node reached, the trees passed, and how many of them count. -/
structure Path where
  node : Nat
  trees : List Tree
  depth : Nat

/-- The step of a path over a link. Trees that may stand anywhere do not count. -/
def Path.over (p : Path) (link : Link) : Path :=
  match link.tree with
  | some t => ⟨link.target, t :: p.trees, if t.isExtra then p.depth else p.depth + 1⟩
  | none => ⟨link.target, p.trees, p.depth + 1⟩

/-- The most paths that are followed at a time. -/
def maxPaths : Nat := 64

/-- Follows all paths down until they are wanted: those wanted in the order in which they are
found. `wanted` says of a path, and of whether it has come to the bottom, whether it is wanted and
whether it ends there. -/
def follow (wanted : Path → Bool → Bool × Bool) : Nat → List Path → List Path → ParseM (List Path)
  | 0, _, found => return found.reverse
  | fuel + 1, paths, found => do
    let mut found := found
    let mut kept : List Path := []
    let mut added : List Path := []
    let mut size := paths.length
    for p in paths do
      let links := (← nodeAt p.node).links
      let (take, stop) := wanted p links.isEmpty
      if take then
        found := p :: found
      match links with
      | [] => size := size - 1
      | first :: rest =>
        if stop then
          size := size - 1
        else
          for link in rest do
            if size < maxPaths then
              added := added ++ [p.over link]
              size := size + 1
          kept := kept ++ [p.over first]
    if (kept ++ added).isEmpty then return found.reverse
    follow wanted fuel (kept ++ added) found

def pathsFrom (version : Nat) (wanted : Path → Bool → Bool × Bool) : ParseM (List Path) := do
  let node := (← headAt version).node
  let fuel := (← get).nodes.size + 1
  follow wanted fuel [⟨node, [], 0⟩] []

/-- Trees taken off a stack, and the reading that is left. -/
structure Slice where
  trees : List Tree
  version : Nat

/-- Adds a reading for each node that paths lead to; paths to one node share a reading. -/
def sliceAll (version : Nat) (paths : List Path) : ParseM (List Slice) := do
  let origin ← headAt version
  let mut slices : List (Slice × Nat) := []
  for p in paths do
    match slices.findIdx? (·.2 == p.node) with
    | some _ =>
      let before := slices.reverse.dropWhile (·.2 != p.node) |>.reverse
      let after := slices.drop before.length
      let v := (before.getLast?.map (·.1.version)).getD 0
      slices := before ++ [(⟨p.trees, v⟩, p.node)] ++ after
    | none =>
      let v ← versionCount
      modify fun m => { m with
        heads := m.heads.push { node := p.node, countAtError := origin.countAtError } }
      slices := slices ++ [(⟨p.trees, v⟩, p.node)]
  return slices.map (·.1)

/-- Takes a number of trees off a reading's stack. -/
def popCount (version count : Nat) : ParseM (List Slice) := do
  sliceAll version (← pathsFrom version fun p _ => (p.depth == count, p.depth == count))

def popAll (version : Nat) : ParseM (List Slice) := do
  sliceAll version (← pathsFrom version fun _ bottom => (bottom, bottom))

/-- Takes the skipped text off the top of a reading's stack, if that is what is there. -/
def popError (l : Language) (version : Nat) : ParseM (List Tree) := do
  let top ← topOf version
  let isError (link : Link) : Bool := match link.tree with
    | some t => l.isError t
    | none => false
  if !top.links.any isError then return []
  let paths ← pathsFrom version fun p _ => match p.trees with
    | [] => (false, false)
    | t :: _ => (l.isError t, true)
  match ← sliceAll version (paths.take 1) with
  | slice :: _ =>
    renumber slice.version version
    return slice.trees
  | [] => return []

/-- How deep below an error the reader looks for a state to return to. -/
def maxRefugeDepth : Nat := 16

/-- The places in a stack to which a reading might return, nearest first. -/
def refugesBelow : Nat → List Path → List Refuge → ParseM (List Refuge)
  | 0, _, found => return found.reverse
  | fuel + 1, paths, found => do
    let mut found := found
    let mut kept : List Path := []
    let mut added : List Path := []
    for p in paths do
      let node ← nodeAt p.node
      if p.depth ≤ maxRefugeDepth then
        if !(found.any fun r => r.depth == p.depth && r.state == node.state) then
          found := ⟨node.position, p.depth, node.state⟩ :: found
        match node.links with
        | [] => pure ()
        | first :: rest =>
          kept := kept ++ [p.over first]
          for link in rest do
            if kept.length + added.length < maxPaths then
              added := added ++ [p.over link]
    if (kept ++ added).isEmpty then return found.reverse
    refugesBelow fuel (kept ++ added) found

/-- Notes the places to which a reading might return. -/
def recordRefuges (version : Nat) : ParseM Unit := do
  let node := (← headAt version).node
  let fuel := (← get).nodes.size + 1
  let refuges ← refugesBelow fuel [⟨node, [], 0⟩] []
  modifyHead version fun h => { h with refuges := some refuges }

end SourceDeps.Parse

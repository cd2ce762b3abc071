import SourceDeps.Parse.Repair

namespace SourceDeps.Parse

open SourceDeps.Grammar SourceDeps.Text

namespace Language

/-- The token from a position when any token will do. Characters that start no token are passed
over; if there are any they are an error of their own. `skipped` is where those start and end. -/
def anyToken (l : Language) (b : Buffer) (before : Nat) :
    Nat → Nat → Option (Nat × Nat) → Token ⊕ Tree
  | 0, i, _ => .inr (l.errorLeaf before i i)
  | fuel + 1, i, skipped =>
    match l.longest b l.recoverable i, skipped with
    | .ok t, none => .inl t
    | .ok _, some (start, stop) => .inr (l.errorLeaf before start stop)
    | .error (tokenStart, reached), _ =>
      let (start, stop) := skipped.getD (tokenStart, tokenStart)
      if reached != stop then anyToken l b before fuel reached (some (start, reached))
      else if b.atEnd reached then .inr (l.errorLeaf before start stop)
      else anyToken l b before fuel (reached + 1) (some (start, reached + 1))

end Language

/-- Whether a reading has passed some text since its last error. -/
def hasAdvanced (version : Nat) : ParseM Bool := do
  let head ← headAt version
  let top ← nodeAt head.node
  if top.cost == 0 then return true
  let rec go : Nat → StackNode → ParseM Bool
    | 0, _ => return false
    | fuel + 1, node => do
      match node.links with
      | ⟨target, some t⟩ :: _ =>
        if t.info.before < t.info.stop then return true
        else if head.countAtError < node.count && t.info.cost == 0 then
          go fuel (← nodeAt target)
        else return false
      | _ => return false
  go 1000 top

/-- The tree of the token that a reading meets next. A word that spells a keyword is that keyword
if the state has a use for it. -/
def lookahead (l : Language) (b : Buffer) (version state : Nat) : ParseM Tree := do
  let position := (← topOf version).position
  let ofToken (t : Token) : ParseM Tree := do
    match t.keyword with
    | some k =>
      if hasActions l state k then return l.leaf position { t with terminal := k }
      else return l.leaf position t
    | none => return l.leaf position t
  let ofAny : ParseM Tree := do
    match l.anyToken b position (2 * b.size + 2) position none with
    | .inl t => ofToken t
    | .inr tree => return tree
  if state == errorState then ofAny
  else
    let valid := (stateOf l state).valid.union l.extras
    let found := l.contextual b valid position
    let found ← match found with
      | some t =>
        if t.stop ≤ position && (l.extras.contains t.terminal || !(← hasAdvanced version)) then
          pure none
        else pure (some t)
      | none => pure none
    match found with
    | some t => return l.leaf position t
    | none =>
      match l.longest b valid position with
      | .ok t => ofToken t
      | .error _ => ofAny

/-- What becomes of a reading on one token: it has passed the token or come to its end, or it has
finished productions, the last of which left it at a version, or its state has no use for the
token. -/
inductive Progress where
  | done
  | reduced (version : Option Nat)
  | stuck

/-- Does on a reading what its state does on a token. -/
def act (l : Language) (b : Buffer) (version state : Nat) (token : Tree) : ParseM Progress := do
  let symbol := token.info.symbol
  if l.isError token then
    return .stuck
  else if l.extras.contains symbol then
    pushTree l version (some token.asExtra) state
    return .done
  else if state == errorState then
    return .stuck
  else
    let actions ← actionsOf l state symbol
    let mut progress := Progress.stuck
    for p in actions.reductions do
      if (l.automaton.productions[p]?.map (·.lhs + l.automaton.firstNonterminal)) ==
          some l.automaton.startNonterminal then
        accept l b version token
        return .done
      else
        match ← reduce l b version p, progress with
        | none, .reduced last => progress := .reduced last
        | last, _ => progress := .reduced last
    if actions.advance == .shift then
      pushTree l version (some token) (successor l state symbol)
      return .done
    return progress

/-- Goes on with a reading until it has passed the token, has come to its end, or is stuck. -/
def advanceWith (l : Language) (b : Buffer) : Nat → Nat → Nat → Tree → ParseM Unit
  | 0, version, _, _ => haltVersion version
  | fuel + 1, version, state, token => do
    match ← act l b version state token with
    | .done => return
    | .reduced (some v) =>
      renumber v version
      advanceWith l b fuel version (← topOf version).state token
    | .reduced none => haltVersion version
    | .stuck =>
      if token.info.keyword && token.info.symbol != l.word &&
          !(← actionsOf l state l.word).isEmpty && state != errorState then
        advanceWith l b fuel version state (l.asWord token)
      else if state == errorState then recover l b version token
      else modifyHead version fun h => { h with status := .paused token }

/-- Goes on with a reading by one token. -/
def advance (l : Language) (b : Buffer) (version : Nat) : ParseM Unit := do
  let state := (← topOf version).state
  let token ← lookahead l b version state
  let fuel := 64 * (b.size + 64)
  advanceWith l b fuel version state token

/-- Goes on with a reading until it is further than the reading before it. -/
def advanceBeyond (l : Language) (b : Buffer) (version : Nat) : Nat → Nat → ParseM Nat
  | 0, last => return last
  | fuel + 1, last => do
    if !(← isActive version) then return last
    advance l b version
    let position := (← topOf version).position
    if last < position || (0 < version && position == last) then return position
    advanceBeyond l b version fuel last

def advanceAll (l : Language) (b : Buffer) : Nat → Nat → Nat → ParseM Nat
  | 0, _, last => return last
  | fuel + 1, version, last => do
    if (← versionCount) ≤ version then return last
    let last ← advanceBeyond l b version 1000 last
    advanceAll l b fuel (version + 1) last

/-- Lets the first reading go on, the paused one that is best if none is active; drops the other
paused readings. Gives the cost of a reading that starts to repair. -/
def resumePaused (l : Language) (b : Buffer) : Nat → Nat → Bool → Option Nat → ParseM (Option Nat)
  | 0, _, _, least => return least
  | fuel + 1, i, seen, least => do
    if (← versionCount) ≤ i then return least
    match (← headAt i).status with
    | .paused token =>
      if !seen && (← get).accepted < maxVersions then
        let cost ← costOf i
        modifyHead i fun h => { h with status := .active }
        let before ← versionCount
        handleError l b i token
        -- readings that the repair added are not looked at here
        let added := (← versionCount) - before
        resumePausedRest fuel (i + 1) added (some cost)
      else
        removeVersion i
        resumePaused l b fuel i seen least
    | _ => resumePaused l b fuel (i + 1) true least
where
  /-- Drops the paused readings after the one that is repaired. -/
  resumePausedRest : Nat → Nat → Nat → Option Nat → ParseM (Option Nat)
    | 0, _, _, least => return least
    | fuel + 1, i, added, least => do
      if (← versionCount) ≤ i + added then return least
      if ← isPaused i then
        removeVersion i
        resumePausedRest fuel i added least
      else resumePausedRest fuel (i + 1) added least

/-- Drops the readings beyond the most that are followed. -/
def dropSurplus : ParseM Unit :=
  modify fun m => { m with heads := m.heads.extract 0 maxVersions }

/-- Drops what is beaten and lets the best go on. Gives the least cost that a tree can still have,
and nothing if that is not known. -/
def condense (l : Language) (b : Buffer) : ParseM (Option Nat) := do
  let least ← dropBeaten l 1000 0 none
  dropSurplus
  resumePaused l b 1000 0 false least

/-- Reads on until no reading is left or the finished tree cannot be beaten. -/
def readAll (l : Language) (b : Buffer) : Nat → Nat → ParseM Unit
  | 0, _ => return
  | fuel + 1, last => do
    if (← versionCount) == 0 then return
    let last ← advanceAll l b 1000 0 last
    let least ← condense l b
    match (← get).finished, least with
    | some t, some cost => if t.info.cost < cost then return
    | some _, none => return
    | none, _ => pure ()
    readAll l b fuel last

/-- The tree of a text. -/
def run (l : Language) (b : Buffer) : Option Tree :=
  let (_, m) := (readAll l b (8 * (b.size + 64)) 0).run (Machine.start)
  m.finished

end SourceDeps.Parse

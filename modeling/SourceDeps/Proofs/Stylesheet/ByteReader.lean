import SourceDeps.Proofs.Loop
import SourceDeps.Proofs.Text.Utf8
import SourceDeps.Stylesheet.Reader

/-! A reader of stylesheets that works on the bytes of a text by their numbers, in loops that are
not bounded beforehand. It faults where it reads a byte that is not there or cuts a character. -/

namespace SourceDeps.Stylesheet.ByteReader

open SourceDeps.Text

/-- What stops the reader: a byte that is not there, or a stretch that cannot be cut out. -/
inductive Fault where
  | outside (index : Nat)
  | cut (start stop : Nat)
  deriving DecidableEq, Repr

/-- A run of the reader may end with a fault, and a loop in it may not end. -/
abbrev Run (α : Type) := ExceptT Fault Part α

/-- A loop ends with a fault or with a result, or it goes on from a state. -/
def endsOrGoesOn {σ α : Type} : Except Fault (σ ⊕ α) → Except Fault α ⊕ σ
  | .error e => .inl (.error e)
  | .ok (.inl s) => .inr s
  | .ok (.inr a) => .inl (.ok a)

/-- A loop takes steps from state to state until one of them gives a result. -/
def loop {σ α : Type} (step : σ → Run (σ ⊕ α)) : σ → Run α :=
  stepwise fun s => (step s).run.map endsOrGoesOn

/-- The byte at an index. -/
def byteAt (b : List UInt8) (k : Nat) : Run UInt8 :=
  match b[k]? with
  | some y => pure y
  | none => throw (.outside k)

/-- The bytes from `start` up to but not including `stop`. -/
def cutBytes (b : List UInt8) (start stop : Nat) : Run (List UInt8) :=
  if start ≤ stop ∧ stop ≤ b.length then pure ((b.take stop).drop start)
  else throw (.cut start stop)

/-- A text split before the character that begins at a byte, or at its end. -/
def splitAtByte? : Nat → List Char → Option (List Char × List Char)
  | 0, cs => some ([], cs)
  | _ + 1, [] => none
  | n + 1, c :: cs =>
    if c.utf8Size ≤ n + 1 then
      (splitAtByte? (n + 1 - c.utf8Size) cs).map fun (front, rest) => (c :: front, rest)
    else none

/-- The characters from the byte `start` up to but not including the byte `stop`. -/
def cutText (cs : List Char) (start stop : Nat) : Run (List Char) :=
  match (splitAtByte? stop cs).bind fun (front, _) => splitAtByte? start front with
  | some (_, stretch) => pure stretch
  | none => throw (.cut start stop)

/-- One byte further in the search for the end of a block comment. -/
def commentStep (b : List UInt8) (k : Nat) : Run (Nat ⊕ Nat) :=
  if k + 1 < b.length then do
    let y ← byteAt b k
    if y = '*'.toUInt8 then do
      let z ← byteAt b (k + 1)
      pure (if z = '/'.toUInt8 then .inr (k + 2) else .inl (k + 1))
    else pure (.inl (k + 1))
  else pure (.inr b.length)

/-- Where the block comment ends that begins at a byte. -/
def commentEnd (b : List UInt8) (start : Nat) : Run Nat := loop (commentStep b) (start + 2)

/-- Where the line ends in which a byte is. -/
def lineEnd (b : List UInt8) (start : Nat) : Run Nat := do
  let rest ← cutBytes b start b.length
  pure (((rest.findIdx? (· = '\n'.toUInt8)).map (start + ·)).getD b.length)

/-- One byte further in a string, or two at a backslash. -/
def stringStep (b : List UInt8) (quote : UInt8) (k : Nat) : Run (Nat ⊕ Nat) :=
  if k < b.length then do
    let y ← byteAt b k
    pure <|
      if y = '\\'.toUInt8 then .inl (k + 2)
      else if y = quote then .inr (k + 1)
      else if y = '\n'.toUInt8 then .inr k
      else .inl (k + 1)
  else pure (.inr b.length)

/-- Where the string ends whose opening quote is at a byte. -/
def stringEnd (b : List UInt8) (quote : UInt8) (start : Nat) : Run Nat :=
  loop (stringStep b quote) (start + 1)

/-- Whether the byte before two slashes is the colon of an address. -/
def followsColon (b : List UInt8) (slash : Nat) : Run Bool :=
  if 0 < slash then do
    let y ← byteAt b (slash - 1)
    pure (y = ':'.toUInt8)
  else pure false

/-- One byte further in a prelude, or behind a string or a comment in it. The state is the number of
open parentheses and the byte. -/
def preludeStep (surface : Surface) (b : List UInt8) : Nat × Nat → Run ((Nat × Nat) ⊕ Nat)
  | (depth, k) =>
    if k < b.length then do
      let y ← byteAt b k
      if y = '\x22'.toUInt8 ∨ y = '\x27'.toUInt8 then do
        let k ← stringEnd b y k
        pure (.inl (depth, k))
      else if y = '/'.toUInt8 ∧ b[k + 1]? = some '*'.toUInt8 then do
        let k ← commentEnd b k
        pure (.inl (depth, k))
      else if y = '/'.toUInt8 ∧ b[k + 1]? = some '/'.toUInt8 ∧ depth = 0 then do
        let address ← followsColon b k
        pure (if address then .inl (depth, k + 1) else .inr k)
      else
        pure <|
          if y = '('.toUInt8 then .inl (depth + 1, k + 1)
          else if y = ')'.toUInt8 then .inl (depth - 1, k + 1)
          else if y = ';'.toUInt8 ∧ depth = 0 then .inr (k + 1)
          else if (y = '\x7b'.toUInt8 ∨ y = '\x7d'.toUInt8) ∧ depth = 0 then .inr k
          else if y = '\n'.toUInt8 ∧ depth = 0 ∧ surface.newlineEnds = true then .inr k
          else .inl (depth, k + 1)
    else pure (.inr b.length)

/-- Where the prelude ends that begins at a byte. -/
def preludeEnd (surface : Surface) (b : List UInt8) (start : Nat) : Run Nat :=
  loop (preludeStep surface b) (0, start)

/-- Whether a byte is a letter, a digit, a hyphen or an underscore. -/
def isNameByte (y : UInt8) : Bool :=
  ('0'.toUInt8 ≤ y && y ≤ '9'.toUInt8) || ('A'.toUInt8 ≤ y && y ≤ 'Z'.toUInt8) ||
    ('a'.toUInt8 ≤ y && y ≤ 'z'.toUInt8) || y == '-'.toUInt8 || y == '_'.toUInt8

/-- One byte further in the name of a rule. -/
def nameStep (b : List UInt8) (k : Nat) : Run (Nat ⊕ Nat) :=
  if k < b.length then do
    let y ← byteAt b k
    pure (if isNameByte y then .inl (k + 1) else .inr k)
  else pure (.inr k)

def nameEnd (b : List UInt8) (start : Nat) : Run Nat := loop (nameStep b) start

/-- The characters of a text, each with the byte at which it begins. -/
def charIndices (index : Nat) : List Char → List (Nat × Char)
  | [] => []
  | c :: cs => (index, c) :: charIndices (index + c.utf8Size) cs

/-- The parts of a prelude that are cut out so far, where the next one begins, and the nesting. -/
structure Cutting where
  parts : List (List Char) := []
  start : Nat := 0
  nesting : Nesting := {}

/-- Cuts out a part at an outer comma, and keeps account of the nesting at any other character. -/
def Cutting.step (body : List Char) (s : Cutting) (a : Nat × Char) : Run Cutting :=
  if s.nesting.separates a.2 then do
    let part ← cutText body s.start a.1
    pure { s with parts := s.parts ++ [part], start := a.1 + 1 }
  else pure { s with nesting := s.nesting.after a.2 }

/-- The parameters of a prelude. -/
def splitParams (prelude : List Char) : Run (List String) := do
  let body := dropSemicolons prelude
  let s ← (charIndices 0 body).foldlM (Cutting.step body) {}
  let last ← cutText body s.start (byteLength body)
  pure ((s.parts ++ [last]).filterMap leading?)

/-- The byte at which the reader is, the line of it, and the rules that are read so far. -/
structure State where
  index : Nat
  line : Nat
  rules : List AtRule

/-- The rule whose sign is at a byte, if there is a name behind it, and where reading goes on. -/
def ruleStep (surface : Surface) (b : List UInt8) (cs : List Char) (s : State) : Run State := do
  let nameStop ← nameEnd b (s.index + 1)
  if nameStop = s.index + 1 then pure { s with index := s.index + 1 }
  else do
    let name ← cutText cs (s.index + 1) nameStop
    let stop ← preludeEnd surface b nameStop
    let body ← cutText cs nameStop stop
    let params ← splitParams (trim body)
    let taken ← cutBytes b s.index stop
    pure
      { index := stop
        line := s.line + taken.count '\n'.toUInt8
        rules := s.rules ++ [⟨String.ofList name, String.ofList (trim body), params, s.line⟩] }

/-- Goes on behind a stretch without rules, and counts the line breaks in it. -/
def skipTo (b : List UInt8) (s : State) (stop : Nat) : Run State := do
  let taken ← cutBytes b s.index stop
  pure { s with index := stop, line := s.line + taken.count '\n'.toUInt8 }

/-- One step through a text, given its bytes and its characters. -/
def readStep (surface : Surface) (b : List UInt8) (cs : List Char) (s : State) :
    Run (State ⊕ List AtRule) :=
  if s.index < b.length then do
    let y ← byteAt b s.index
    if y = '\n'.toUInt8 then pure (.inl { s with index := s.index + 1, line := s.line + 1 })
    else if y = '/'.toUInt8 ∧ b[s.index + 1]? = some '*'.toUInt8 then do
      let stop ← commentEnd b s.index
      .inl <$> skipTo b s stop
    else if y = '/'.toUInt8 ∧ b[s.index + 1]? = some '/'.toUInt8 then do
      let stop ← lineEnd b s.index
      pure (.inl { s with index := stop })
    else if y = '\x22'.toUInt8 ∨ y = '\x27'.toUInt8 then do
      let stop ← stringEnd b y s.index
      .inl <$> skipTo b s stop
    else if y = '@'.toUInt8 then .inl <$> ruleStep surface b cs s
    else pure (.inl { s with index := s.index + 1 })
  else pure (.inr s.rules)

/-- The stylesheet of a text. -/
def readBytes (surface : Surface) (text : String) : Run Stylesheet := do
  let rules ← loop (readStep surface text.toUTF8.data.toList text.toList) ⟨0, 1, []⟩
  pure ⟨surface, rules⟩

theorem pure_inj {α : Type} {x y : α} : (pure x : Run α) = pure y ↔ x = y := by
  constructor
  · intro h
    exact Except.ok.inj (Part.some_inj.mp h)
  · exact congrArg pure

theorem throw_ne_pure {α : Type} (e : Fault) (a : α) : (throw e : Run α) ≠ pure a := by
  intro h
  cases Part.some_inj.mp h

theorem exists_of_bind_eq_pure {α β : Type} {x : Run α} {f : α → Run β} {r : β}
    (h : x >>= f = pure r) : ∃ a, x = pure a ∧ f a = pure r := by
  obtain ⟨o, ho, hr⟩ := Part.mem_bind_iff.mp (Part.eq_some_iff.mp h)
  cases o with
  | error e => cases Part.mem_some_iff.mp hr
  | ok a => exact ⟨a, Part.eq_some_iff.mpr ho, Part.eq_some_iff.mpr hr⟩

theorem exists_of_map_inl {α β : Type} {x : Run α} {a : α}
    (h : (Sum.inl <$> x : Run (α ⊕ β)) = pure (.inl a)) : x = pure a := by
  rw [map_eq_pure_bind] at h
  obtain ⟨a', hx, h⟩ := exists_of_bind_eq_pure h
  rw [hx, Sum.inl.inj (pure_inj.mp h)]

theorem byteAt_eq {b : List UInt8} {k : Nat} {y : UInt8} (h : b[k]? = some y) :
    byteAt b k = pure y := by
  rw [byteAt, h]

section loops

variable {σ α : Type} {step : σ → Run (σ ⊕ α)}

theorem loop_next {s s' : σ} (h : step s = pure (.inl s')) : loop step s = loop step s' :=
  stepwise_next (congrArg (fun x => Part.map endsOrGoesOn x.run) h)

theorem loop_done {s : σ} {a : α} (h : step s = pure (.inr a)) : loop step s = pure a :=
  stepwise_done (congrArg (fun x => Part.map endsOrGoesOn x.run) h)

/-- A loop whose steps keep an invariant and come nearer to a bound as long as they give no result
ends, and has a result as the last step promises it. -/
theorem loop_ends (index : σ → Nat) (bound : Nat) (invariant : σ → Prop) {post : α → Prop}
    (hstep : ∀ s, invariant s →
      (∃ s', step s = pure (.inl s') ∧ invariant s' ∧ index s < index s' ∧ index s < bound) ∨
        ∃ a, step s = pure (.inr a) ∧ post a)
    (s : σ) (hs : invariant s) : ∃ a, loop step s = pure a ∧ post a := by
  rcases hstep s hs with ⟨s', hnext, hs', hlt, hbound⟩ | ⟨a, hdone, ha⟩
  · rw [loop_next hnext]
    exact loop_ends index bound invariant hstep s' hs'
  · exact ⟨a, loop_done hdone, ha⟩
termination_by bound - index s

end loops

end SourceDeps.Stylesheet.ByteReader

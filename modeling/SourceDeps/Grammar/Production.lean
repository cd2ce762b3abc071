import Std.Data.HashMap
import SourceDeps.Grammar.Rule
import SourceDeps.Grammar.TokenSet

/-! A rule is spread over its choices, and its repetitions become rules of their own. Symbols are
numbers: tokens first, with the end of the text as token 0, then the named rules in order. -/

namespace SourceDeps.Grammar

/-- One symbol of a production, with what the rule said about it. -/
structure Step (σ : Type) where
  symbol : σ
  precedence : Precedence
  side : Option Side
  label : Option String
  rename : Option String
  deriving DecidableEq, Hashable, Repr

/-- One way to build a rule's node. The weight decides between readings of one text. -/
structure Production (σ : Type) where
  lhs : Nat
  steps : Array (Step σ)
  weight : Int
  deriving DecidableEq, Repr

/-- A symbol as a rule names it. -/
inductive Name where
  | token (name : String)
  | rule (name : String)
  deriving DecidableEq, Repr

namespace Rule

/-- The rules without a choice of which this rule is the choice, in order. -/
def alternatives : Rule → List Rule
  | join a b => a.alternatives.flatMap fun x => b.alternatives.map (join x)
  | either a b => a.alternatives ++ b.alternatives
  | ranked p s r => r.alternatives.map (ranked p s)
  | weighted w r => r.alternatives.map (weighted w)
  | labelled l r => r.alternatives.map (labelled l)
  | renamed n r => r.alternatives.map (renamed n)
  | r => [r]

/-- The names of the tokens of a rule, in order, with repetitions. -/
def tokens : Rule → List String
  | token n => [n]
  | join a b | either a b => a.tokens ++ b.tokens
  | repeat1 r | ranked _ _ r | weighted _ r | labelled _ r | renamed _ r => r.tokens
  | blank | ref _ => []

/-- Replaces the repetitions of a rule, innermost first, by rules `x → x x | body`. Repetitions of
one body share a rule; `found` lists the bodies with the names of their rules. -/
def hoistRepeats : Rule → List (Rule × String) → Rule × List (Rule × String)
  | repeat1 r, found =>
    let (body, found) := r.hoistRepeats found
    match found.lookup body with
    | some name => (ref name, found)
    | none =>
      let name := "repeat " ++ toString found.length
      (ref name, found ++ [(body, name)])
  | join a b, found =>
    let (a, found) := a.hoistRepeats found
    let (b, found) := b.hoistRepeats found
    (join a b, found)
  | either a b, found =>
    let (a, found) := a.hoistRepeats found
    let (b, found) := b.hoistRepeats found
    (either a b, found)
  | ranked p s r, found =>
    let (r, found) := r.hoistRepeats found
    (ranked p s r, found)
  | weighted w r, found =>
    let (r, found) := r.hoistRepeats found
    (weighted w r, found)
  | labelled l r, found =>
    let (r, found) := r.hoistRepeats found
    (labelled l r, found)
  | renamed n r, found =>
    let (r, found) := r.hoistRepeats found
    (renamed n r, found)
  | r, found => (r, found)

/-- What the enclosing rules say about the steps of a rule. -/
structure Context where
  precedence : Precedence := .unset
  side : Option Side := none
  label : Option String := none
  rename : Option String := none

/-- The step over a symbol that the enclosing rules speak of. -/
def Context.stepTo (c : Context) (symbol : Name) : Step Name :=
  ⟨symbol, c.precedence, c.side, c.label, c.rename⟩

def modifyLast {α : Type} (xs : Array α) (f : α → α) : Array α :=
  xs.modify (xs.size - 1) f

/-- The steps and the weight of a rule without choices. A step that ends a ranked part in the
middle of the production has the precedence in force around that part. The flag says whether the
rule added a step. -/
def flatten : Rule → Context → Bool → Array (Step Name) × Int → (Array (Step Name) × Int) × Bool
  | blank, _, _, acc => (acc, false)
  | token n, c, _, (steps, w) => ((steps.push (c.stepTo (.token n)), w), true)
  | ref n, c, _, (steps, w) => ((steps.push (c.stepTo (.rule n)), w), true)
  | join a b, c, last, acc =>
    let (acc, x) := a.flatten c false acc
    let (acc, y) := b.flatten c last acc
    (acc, x || y)
  | either a _, c, last, acc => a.flatten c last acc
  | repeat1 r, c, last, acc => r.flatten c last acc
  | ranked p s r, c, last, acc =>
    let inner := { c with
      precedence := if p = .unset then c.precedence else p
      side := s.or c.side }
    let ((steps, w), added) := r.flatten inner last acc
    if added && !last then
      ((modifyLast steps fun step =>
        { step with
          precedence := if p = .unset then step.precedence else c.precedence
          side := if s.isSome then c.side else step.side }, w), added)
    else ((steps, w), added)
  | weighted n r, c, last, (steps, w) =>
    r.flatten c last (steps, if w.natAbs < n.natAbs then n else w)
  | labelled l r, c, last, acc => r.flatten { c with label := some l } last acc
  | renamed n r, c, last, acc => r.flatten { c with rename := some n } last acc

end Rule

/-- Puts the steps of one production in the place of a step of another. -/
def Production.splice {σ : Type} (p : Production σ) (place : Nat) (step : Step σ)
    (q : Production σ) : Production σ :=
  let inner := q.steps.map fun s =>
    { s with label := step.label.or s.label, rename := step.rename.or s.rename }
  let inner := Rule.modifyLast inner fun s =>
    { s with
      precedence := if s.precedence = .unset then step.precedence else s.precedence
      side := s.side.or step.side }
  { p with
    steps := p.steps.extract 0 place ++ inner ++ p.steps.extract (place + 1) p.steps.size
    weight := if p.weight.natAbs < q.weight.natAbs then q.weight else p.weight }

/-- Replaces steps that name an inlined rule by that rule's productions until none is left. -/
def inlineAll {σ : Type} (bodies : σ → Option (List (Production σ))) :
    Nat → Production σ → List (Production σ)
  | 0, p => [p]
  | fuel + 1, p =>
    match p.steps.findIdx? (fun s => (bodies s.symbol).isSome) with
    | none => [p]
    | some i =>
      match p.steps[i]? with
      | none => [p]
      | some step =>
        ((bodies step.symbol).getD []).flatMap fun q => inlineAll bodies fuel (p.splice i step q)

/-- A token of the grammar: what is read, the name of its node, and whether it makes a node. -/
structure Terminal where
  token : String
  name : String
  named : Bool
  deriving Repr, Inhabited

/-- A named rule: whether it makes a node of its own, and whether it stands for a repetition. -/
structure Nonterminal where
  name : String
  hidden : Bool
  repetition : Bool
  deriving Repr, Inhabited

/-- Whether a nonterminal only serves to write other rules down. -/
def Nonterminal.isAuxiliary (v : Nonterminal) : Bool := v.repetition || v.name.front == '_'

/-- A grammar with numbered symbols. -/
structure Numbered where
  terminals : Array Terminal
  nonterminals : Array Nonterminal
  productions : Array (Production Nat)
  /-- For each nonterminal the numbers of its productions. -/
  ofNonterminal : Array (Array Nat)

namespace Numbered

def endOfText : Nat := 0

def firstNonterminal (g : Numbered) : Nat := g.terminals.size

/-- The number of the first symbol above all of the grammar's own. -/
def symbolCount (g : Numbered) : Nat := g.terminals.size + g.nonterminals.size

/-- The number of the nonterminal that stands for a whole text. -/
def startNonterminal (g : Numbered) : Nat := g.terminals.size + (g.nonterminals.size - 1)

def isNonterminal (g : Numbered) (symbol : Nat) : Bool := g.terminals.size ≤ symbol

/-- The number of a token given by what is read. -/
def terminal? (g : Numbered) (token : String) : Option Nat :=
  g.terminals.findIdx? (·.token == token)

end Numbered

namespace Source

/-- The rules with repetitions made into rules of their own, and the names of these. -/
def hoisted (src : Source) : List (String × Rule) × List (String × Rule) :=
  let (rules, found) := src.rules.foldl
    (fun (acc : List (String × Rule) × List (Rule × String)) (rule : String × Rule) =>
      let (body, found) := rule.2.hoistRepeats acc.2
      ((rule.1, body) :: acc.1, found))
    ([], [])
  let repetition (body : Rule) (name : String) : Rule := .either (.join (.ref name) (.ref name)) body
  (rules.reverse, found.map fun (body, name) => (name, repetition body name))

/-- The tokens in their order: the word token, the others as they appear, those read by context. -/
def tokenOrder (src : Source) : List String :=
  let all := (src.rules.flatMap fun rule => rule.2.tokens).filter (!src.contextual.contains ·)
  (src.word :: all).eraseDups ++ src.contextual

/-- Numbers the symbols of a grammar and writes its rules out as productions. A named rule that is
the only use of a token is that token. The last nonterminal has the first rule as its one
production. -/
def number (src : Source) : Numbered :=
  let uses := src.rules.flatMap fun rule => rule.2.tokens
  let asToken : List (String × String) := src.rules.filterMap fun (name, body) =>
    match body with
    | .token t => if uses.count t == 1 then some (t, name) else none
    | _ => none
  let terminals : Array Terminal := (src.tokenOrder.map fun t =>
    match asToken.lookup t with
    | some name => ⟨t, name, true⟩
    | none => ⟨t, t, src.contextual.contains t && t.front != '_'⟩).toArray
  let terminals := #[⟨"", "end", false⟩] ++ terminals
  let tokenNumbers : Std.HashMap String Nat :=
    Std.HashMap.ofList (terminals.toList.zipIdx.map fun (t, i) => (t.token, i))
  let (rules, repeats) := src.hoisted
  let start : String × Rule := ("start", .ref ((rules.head?.map (·.1)).getD ""))
  let all := (rules ++ repeats ++ [start]).toArray
  let ruleNumbers : Std.HashMap String Nat :=
    Std.HashMap.ofList (all.toList.zipIdx.map fun (r, i) => (r.1, i + terminals.size))
  let tokenOfRule : Std.HashMap String String :=
    Std.HashMap.ofList (asToken.map fun (t, name) => (name, t))
  let numberOf : Name → Nat
    | .token t => tokenNumbers.getD t 0
    | .rule r =>
      match tokenOfRule[r]? with
      | some t => tokenNumbers.getD t 0
      | none => ruleNumbers.getD r 0
  let productionsOf (i : Nat) (body : Rule) : List (Production Nat) :=
    (body.alternatives.map fun alternative =>
      let ((steps, weight), _) := alternative.flatten {} true (#[], 0)
      (⟨i, steps.map fun s => ⟨numberOf s.symbol, s.precedence, s.side, s.label, s.rename⟩, weight⟩
        : Production Nat)).eraseDups
  let written : Array (List (Production Nat)) := all.mapIdx fun i r => productionsOf i r.2
  let inlinedNumbers := src.inlined.map fun name => ruleNumbers.getD name 0
  let bodies (symbol : Nat) : Option (List (Production Nat)) :=
    if inlinedNumbers.contains symbol then written[symbol - terminals.size]? else none
  let final : Array (List (Production Nat)) :=
    written.map fun ps => (ps.flatMap (inlineAll bodies 32)).eraseDups
  let (productions, ofNonterminal) := final.foldl
    (fun (acc : Array (Production Nat) × Array (Array Nat)) ps =>
      let start := acc.1.size
      (acc.1 ++ ps.toArray, acc.2.push ((List.range ps.length).map (start + ·)).toArray))
    (#[], #[])
  let nonterminals := all.mapIdx fun i r =>
    (⟨r.1, i ≥ rules.length || r.1.front == '_' || src.hidden.contains r.1,
      rules.length ≤ i && i + 1 < all.size⟩ : Nonterminal)
  ⟨terminals, nonterminals, productions, ofNonterminal⟩

end Source

end SourceDeps.Grammar

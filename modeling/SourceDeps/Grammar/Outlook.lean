import SourceDeps.Grammar.Production

/-! Two productions that build the same nonterminal, have been read equally far and go on in the
same way need not be told apart any more: they have the same outlook, and the first stands for both.
-/

namespace SourceDeps.Grammar

/-- What a production says from a place on, and what it keeps of the steps before that place: how
tightly the last of them binds, their labels and new names, and their symbols where the parts of a
hidden symbol have labels. -/
structure Outlook where
  lhs : Nat
  weight : Int
  bound : Option (Precedence × Option Side)
  past : List (Option Nat × Option String × Option String)
  ahead : List (Step Nat)
  deriving DecidableEq, Hashable

namespace Numbered

/-- The hidden nonterminals whose parts have labels, as far as `known` tells. -/
def labelledParts (g : Numbered) (known : Array Bool) : Array Bool :=
  (g.nonterminals.zip g.ofNonterminal).map fun (v, ps) =>
    v.hidden && ps.any fun p =>
      match g.productions[p]? with
      | some production => production.steps.any fun step =>
          step.label.isSome ||
            (g.isNonterminal step.symbol && known.getD (step.symbol - g.firstNonterminal) false)
      | none => false

/-- The hidden nonterminals whose parts, or whose hidden parts' parts, have labels. -/
def labelled (g : Numbered) : Array Bool :=
  (List.range g.nonterminals.size).foldl (fun known _ => g.labelledParts known)
    (Array.replicate g.nonterminals.size false)

def outlook (g : Numbered) (labelled : Array Bool) (p : Production Nat) (dot : Nat) : Outlook :=
  let past := p.steps.toList.take dot
  let keepsSymbols := past.any fun step =>
    g.isNonterminal step.symbol && labelled.getD (step.symbol - g.firstNonterminal) false
  { lhs := p.lhs
    weight := p.weight
    bound := past.getLast?.map fun step => (step.precedence, step.side)
    past := past.map fun step =>
      (if keepsSymbols then some step.symbol else none, step.label, step.rename)
    ahead := p.steps.toList.drop dot }

/-- For each production and each place in it the first production with the same outlook there. -/
def representatives (g : Numbered) : Array (Array Nat) :=
  let labelled := g.labelled
  let outlooks : Array (List Outlook) := g.productions.map fun p =>
    (List.range (p.steps.size + 1)).map (g.outlook labelled p)
  let first : Std.HashMap Outlook Nat := outlooks.toList.zipIdx.foldl
    (fun first (row, i) => row.foldl (fun first o => first.insertIfNew o i) first) ∅
  outlooks.mapIdx fun i row => (row.map fun o => first.getD o i).toArray

end Numbered

end SourceDeps.Grammar

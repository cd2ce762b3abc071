import SourceDeps.Grammar.Table
import SourceDeps.Text.Buffer

namespace SourceDeps.Parse

open SourceDeps.Grammar SourceDeps.Text

/-- A token in the text. For a word also the keyword that it spells, if it spells one. -/
structure Token where
  terminal : Nat
  start : Nat
  stop : Nat
  keyword : Option Nat := none

/-- A language: its automaton and the states of it, the tokens that may stand anywhere, the word
token, the tokens that are looked for after an error, and the two ways to find a token among those
that may stand at a position: by context, or else the longest. Where no token is found, the answer
is where one would have started and how far the text was read. -/
structure Language where
  automaton : Automaton
  table : Table
  extras : TokenSet
  word : Nat
  recoverable : TokenSet
  contextual : Buffer → TokenSet → Nat → Option Token
  longest : Buffer → TokenSet → Nat → Except (Nat × Nat) Token

namespace Language

/-- The symbol of a stretch of text that was not understood. -/
def errorSymbol (l : Language) : Nat := l.automaton.symbolCount

/-- The symbol of one piece of such a stretch. -/
def skippedSymbol (l : Language) : Nat := l.automaton.symbolCount + 1

/-- Whether a symbol makes a node of its own. -/
def isVisible (l : Language) (symbol : Nat) : Bool :=
  if symbol < l.automaton.terminals.size then
    match l.automaton.terminals[symbol]? with
    | some t => symbol != 0 && t.name.front != '_'
    | none => false
  else
    match l.automaton.nonterminals[symbol - l.automaton.terminals.size]? with
    | some v => !v.hidden
    | none => symbol == l.errorSymbol

end Language

end SourceDeps.Parse

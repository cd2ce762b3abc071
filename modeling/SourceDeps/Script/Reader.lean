import SourceDeps.Parse.Run
import SourceDeps.Script.Fault
import SourceDeps.Script.Lexer
import SourceDeps.Script.Tree

namespace SourceDeps.Script

open SourceDeps.Text

namespace Field

/-- The part of a node that a label of the grammar stands for. -/
def ofLabel (label : String) : Option Field :=
  match label with
  | "function" => some function
  | "arguments" => some arguments
  | "object" => some object
  | "property" => some property
  | "source" => some source
  | _ => none

end Field

namespace Reader

/-- What a production says about its symbols: the new name and the part, for each in turn. -/
abbrev Shape := List (Option String × Option Field)

/-- For each production what it says about its symbols. -/
def shapes : Array Shape :=
  language.automaton.productions.map fun p =>
    p.steps.toList.map fun step => (step.rename, step.label.bind Field.ofLabel)

def kinds : Array Kind :=
  let terminals := language.automaton.terminals.map fun t =>
    if t.named then Kind.ofName t.name else .mark t.name
  let nonterminals := language.automaton.nonterminals.map fun v => Kind.ofName v.name
  terminals ++ nonterminals ++ #[.error]

/-- The kind of a node under its new name, if it has one. -/
def kindOf (symbol : Nat) (rename : Option String) : Kind :=
  match rename with
  | some name => if name.front.isAlpha then .ofName name else .mark name
  | none => kinds.getD symbol .error

/-- Whether nodes of a kind keep their text even if they have children. -/
def keepsText (kind : Kind) : Bool := kind == .string || kind == .templateString

mutual

/-- The nodes of a tree, put in front of others. A hidden symbol gives the nodes of its parts, of
which the first is the part that the symbol is. -/
def nodes (b : Buffer) (rename : Option String) (field : Option Field) (rest : List Node) :
    Parse.Tree → List Node
  | .node i children =>
    if i.visible || rename.isSome then
      let kind := kindOf i.symbol rename
      let below := nodesOfAll b (shapes.getD i.production []) none [] children
      let text := if below.isEmpty || keepsText kind then b.slice i.start i.stop else ""
      .mk kind field ⟨b.byteAt i.start, b.byteAt i.stop⟩ text i.missing (0 < i.cost) below :: rest
    else
      let shape := if children.isEmpty then [] else shapes.getD i.production []
      nodesOfAll b shape field rest children

/-- The nodes of the parts of a symbol, put in front of others. -/
def nodesOfAll (b : Buffer) (shape : Shape) (outer : Option Field) (rest : List Node) :
    List Parse.Tree → List Node
  | [] => rest
  | t :: ts =>
    if t.isExtra then nodes b none none (nodesOfAll b shape outer rest ts) t
    else
      let (rename, field) := shape.headD (none, none)
      nodes b rename (outer.or field) (nodesOfAll b shape.tail none rest ts) t

end

/-- The tree of a text, errors included. -/
def recover (source : String) : Node :=
  let b := Buffer.ofString source
  match Parse.run language b with
  | some t => (nodes b none none [] t).headD default
  | none => .mk .error none ⟨0, 0⟩ "" false true []

end Reader

/-- The tree of a script, or the place of the first error in a text that is none. -/
def read (source : String) : Except Position Tree :=
  let root := Reader.recover source
  if root.hasError then
    .error (.ofByte source ((root.firstError?.getD root).span.start))
  else .ok ⟨root, source⟩

end SourceDeps.Script

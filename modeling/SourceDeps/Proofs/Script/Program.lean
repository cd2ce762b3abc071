import SourceDeps.Script.Tree

namespace SourceDeps.Script

namespace Node

mutual

/-- A node without the spans of itself and of what is below it. -/
def unplaced : Node → Node
  | mk kind field _ text missing faulty children =>
    mk kind field default text missing faulty (unplacedAll children)

/-- Nodes without their spans. -/
def unplacedAll : List Node → List Node
  | [] => []
  | n :: ns => unplaced n :: unplacedAll ns

end

theorem unplacedAll_eq_map (ns : List Node) : unplacedAll ns = ns.map unplaced := by
  induction ns with
  | nil => rfl
  | cons n ns ih => rw [unplacedAll, ih, List.map_cons]

variable (n : Node)

theorem unplaced_eq : n.unplaced = mk n.kind n.field default n.text n.isMissing n.hasError
    (n.children.map unplaced) := by
  cases n
  rw [unplaced, unplacedAll_eq_map]
  rfl

@[simp]
theorem kind_unplaced : n.unplaced.kind = n.kind := by
  rw [unplaced_eq]
  rfl

@[simp]
theorem field_unplaced : n.unplaced.field = n.field := by
  rw [unplaced_eq]
  rfl

theorem children_unplaced : n.unplaced.children = n.children.map unplaced := by
  rw [unplaced_eq]
  rfl

end Node

namespace Tree

/-- Whether a tree is that of a whole program. -/
def IsProgram (t : Tree) : Prop := t.root.kind = .program

/-- The statements of a program, wherever they stand in its text. -/
def statements (t : Tree) : List Node := t.root.children.map Node.unplaced

end Tree

end SourceDeps.Script

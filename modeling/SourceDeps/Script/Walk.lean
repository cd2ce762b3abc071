import SourceDeps.Script.Tree

/-! A walk gives each node to a step that also says whether to go below it. `Node.visit` is the walk
by recursion; `Cursor.walk` moves a cursor, so that deep trees need no deep stack. -/

namespace SourceDeps.Script

namespace Node

mutual

/-- The walk over a node and what is below it. -/
def visit {σ : Type} (step : σ → Node → σ × Bool) (s : σ) : Node → σ
  | mk kind field span text missing faulty children =>
    match step s (mk kind field span text missing faulty children) with
    | (s, true) => visitAll step s children
    | (s, false) => s

/-- The walk over nodes that stand side by side. -/
def visitAll {σ : Type} (step : σ → Node → σ × Bool) (s : σ) : List Node → σ
  | [] => s
  | n :: ns => visitAll step (visit step s n) ns

end

end Node

/-- A place in the tree below a node: the node there, its siblings to the right, and the nodes
above it with their siblings to the right, nearest first. -/
structure Cursor where
  node : Node
  right : List Node
  above : List (Node × List Node)

namespace Cursor

/-- The cursor at the node where a walk starts. It does not leave what is below that node. -/
def start (n : Node) : Cursor := ⟨n, [], []⟩

def firstChild? (c : Cursor) : Option Cursor :=
  match c.node.children with
  | [] => none
  | n :: ns => some ⟨n, ns, (c.node, c.right) :: c.above⟩

/-- The next sibling, or else that of the nearest node above that has one. -/
def leaveFrom : List Node → List (Node × List Node) → Option Cursor
  | n :: ns, above => some ⟨n, ns, above⟩
  | [], [] => none
  | [], (_, ns) :: above => leaveFrom ns above

/-- The next node that is not below the current one. -/
def leave? (c : Cursor) : Option Cursor := leaveFrom c.right c.above

/-- The size of the siblings to the right of the nodes above. -/
noncomputable def sizeAbove : List (Node × List Node) → Nat
  | [] => 0
  | (_, ns) :: above => sizeOf ns + sizeAbove above

/-- The size of what is not below the current node and still to be visited. -/
noncomputable def remaining (c : Cursor) : Nat := sizeOf c.right + sizeAbove c.above

/-- The size of what is still to be visited, the current node included. -/
noncomputable def pending (c : Cursor) : Nat := sizeOf c.node + c.remaining

theorem pending_firstChild? {c d : Cursor} (h : c.firstChild? = some d) :
    d.pending < c.pending := by
  obtain ⟨⟨kind, field, span, text, missing, faulty, children⟩, right, above⟩ := c
  cases children with
  | nil => simp [firstChild?, Node.children] at h
  | cons n ns =>
    simp only [firstChild?, Node.children, Option.some.injEq] at h
    subst h
    simp only [pending, remaining, sizeAbove, Node.mk.sizeOf_spec, List.cons.sizeOf_spec]
    omega

theorem pending_leaveFrom {right : List Node} {above : List (Node × List Node)} {d : Cursor}
    (h : leaveFrom right above = some d) :
    d.pending ≤ sizeOf right + sizeAbove above := by
  fun_induction leaveFrom right above with
  | case1 n ns above =>
    simp only [Option.some.injEq] at h
    subst h
    simp only [pending, remaining, List.cons.sizeOf_spec]
    omega
  | case2 => simp at h
  | case3 n ns above ih =>
    have hle := ih h
    rw [sizeAbove]
    omega

theorem pending_leave? {c d : Cursor} (h : c.leave? = some d) : d.pending < c.pending := by
  have hle := pending_leaveFrom h
  have hpos : 0 < sizeOf c.node := by
    cases c.node
    simp only [Node.mk.sizeOf_spec]
    omega
  simp only [pending, remaining] at *
  omega

/-- The walk from a cursor on, to the end of what is below the node where it started. -/
def walk {σ : Type} (step : σ → Node → σ × Bool) (c : Cursor) (s : σ) : σ :=
  let (s, descend) := step s c.node
  match _h : if descend then c.firstChild? else none with
  | some d => walk step d s
  | none =>
    match _h' : c.leave? with
    | some d => walk step d s
    | none => s
termination_by c.pending
decreasing_by
  · split at _h
    · exact pending_firstChild? _h
    · simp at _h
  · exact pending_leave? _h'

end Cursor

namespace Node

/-- The walk below a node whose step says whether to go below each node that it is given. -/
def walkPruned {σ : Type} (step : σ → Node → σ × Bool) (n : Node) (s : σ) : σ :=
  (Cursor.start n).walk step s

/-- The nodes that a walk meets which goes below those that satisfy a test. -/
def walked (descend : Node → Bool) (n : Node) : List Node :=
  (n.walkPruned (fun met m => (m :: met, descend m)) []).reverse

/-- A node and all nodes below it, in the order of the text. -/
def preorder (n : Node) : List Node := n.walked fun _ => true

end Node

end SourceDeps.Script

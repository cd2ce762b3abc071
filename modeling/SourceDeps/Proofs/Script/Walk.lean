import SourceDeps.Script.Walk

namespace SourceDeps.Script

namespace Node

/-- To prove something of every node it is enough to prove it of a node whose children have it. -/
theorem induct {motive : Node → Prop} (step : ∀ n, (∀ c ∈ n.children, motive c) → motive n)
    (n : Node) : motive n :=
  step n fun c _ => induct step c
termination_by sizeOf n
decreasing_by exact sizeOf_child ‹_›

variable {σ : Type} (step : σ → Node → σ × Bool)

theorem visit_eq (s : σ) (n : Node) :
    visit step s n =
      if (step s n).2 then visitAll step (step s n).1 n.children else (step s n).1 := by
  obtain ⟨kind, field, span, text, missing, faulty, children⟩ := n
  rw [visit, Node.children]
  rcases step s (mk kind field span text missing faulty children) with ⟨s, descend⟩
  cases descend <;> rfl

theorem visitAll_append (s : σ) (ms ns : List Node) :
    visitAll step s (ms ++ ns) = visitAll step (visitAll step s ms) ns := by
  induction ms generalizing s with
  | nil => simp only [List.nil_append, visitAll]
  | cons m ms ih => simp only [List.cons_append, visitAll, ih]

end Node

namespace Cursor

/-- The nodes after that of the cursor, down to the level where the walk started, whose subtrees
are still to be visited. -/
def behind (c : Cursor) : List Node := c.right ++ c.above.flatMap Prod.snd

theorem behind_leaveFrom (right : List Node) (above : List (Node × List Node)) :
    right ++ above.flatMap Prod.snd =
      match leaveFrom right above with
      | some d => d.node :: d.behind
      | none => [] := by
  fun_induction leaveFrom right above with
  | case1 n ns above => rfl
  | case2 => rfl
  | case3 n ns above ih => rw [List.flatMap_cons, List.nil_append, ih]

/-- Where a walk goes from a cursor: to the first child, if it may go below the node and there is
one, else to what is behind. -/
def next? (descend : Bool) (c : Cursor) : Option Cursor :=
  (if descend then c.firstChild? else none).or c.leave?

theorem pending_next? {descend : Bool} {c d : Cursor} (h : c.next? descend = some d) :
    d.pending < c.pending := by
  obtain hd | ⟨-, hl⟩ := Option.or_eq_some_iff.mp h
  · cases descend with
    | true => exact pending_firstChild? hd
    | false => cases hd
  · exact pending_leave? hl

/-- No node is lost on the way to the next cursor, and none but those that are not gone below. -/
theorem behind_next? (descend : Bool) (c : Cursor) :
    (if descend then c.node.children else []) ++ c.behind =
      match c.next? descend with
      | some d => d.node :: d.behind
      | none => [] := by
  have hleave : c.behind = match c.leave? with
      | some d => d.node :: d.behind
      | none => [] := behind_leaveFrom c.right c.above
  cases descend with
  | false => exact hleave
  | true =>
    simp only [next?, firstChild?, ↓reduceIte]
    cases c.node.children with
    | nil => exact hleave
    | cons n ns => rfl

variable {σ : Type} (step : σ → Node → σ × Bool)

theorem walk_eq (c : Cursor) (s : σ) :
    c.walk step s =
      match c.next? (step s c.node).2 with
      | some d => d.walk step (step s c.node).1
      | none => (step s c.node).1 := by
  rw [walk]
  rcases hstep : step s c.node with ⟨t, descend⟩
  cases descend with
  | false => cases hl : c.leave? <;> simp [next?, hl]
  | true =>
    cases hf : c.firstChild? with
    | none => cases hl : c.leave? <;> simp [next?, hf, hl]
    | some d => simp [next?, hf]

/-- From a cursor on, the walk is the recursive walk over its node and over all that is behind. -/
theorem walk_eq_visitAll (c : Cursor) (s : σ) :
    c.walk step s = Node.visitAll step s (c.node :: c.behind) := by
  have hvisit : Node.visitAll step s (c.node :: c.behind) =
      Node.visitAll step (step s c.node).1
        ((if (step s c.node).2 then c.node.children else []) ++ c.behind) := by
    rw [Node.visitAll, Node.visit_eq, Node.visitAll_append]
    cases (step s c.node).2 <;> rfl
  rw [walk_eq, hvisit, behind_next?]
  cases h : c.next? (step s c.node).2 with
  | none => rfl
  | some d => exact walk_eq_visitAll d (step s c.node).1
termination_by c.pending
decreasing_by exact pending_next? h

end Cursor

namespace Node

theorem walkPruned_eq_visit {σ : Type} (step : σ → Node → σ × Bool) (n : Node) (s : σ) :
    n.walkPruned step s = visit step s n :=
  Cursor.walk_eq_visitAll step (Cursor.start n) s

def collect (descend : Node → Bool) (met : List Node) (n : Node) : List Node × Bool :=
  (n :: met, descend n)

theorem walked_eq_reverse (descend : Node → Bool) (n : Node) :
    n.walked descend = (visit (collect descend) [] n).reverse := by
  rw [walked, walkPruned_eq_visit]
  rfl

theorem visitAll_collect (descend : Node → Bool) (ns : List Node)
    (h : ∀ n ∈ ns, ∀ met, visit (collect descend) met n = (n.walked descend).reverse ++ met)
    (met : List Node) :
    visitAll (collect descend) met ns = (ns.flatMap (walked descend)).reverse ++ met := by
  induction ns generalizing met with
  | nil => rw [visitAll, List.flatMap_nil, List.reverse_nil, List.nil_append]
  | cons n ns ih =>
    have hns := fun m hm => h m (List.mem_cons_of_mem n hm)
    rw [visitAll, h n List.mem_cons_self, ih hns, List.flatMap_cons, List.reverse_append,
      List.append_assoc]

theorem visit_collect (descend : Node → Bool) (n : Node) :
    (∀ met, visit (collect descend) met n = (n.walked descend).reverse ++ met) ∧
      n.walked descend = n :: if descend n then n.children.flatMap (walked descend) else [] := by
  induction n using induct with
  | step n ih =>
    have hall := visitAll_collect descend n.children fun c hc => (ih c hc).1
    have hvisit (met : List Node) : visit (collect descend) met n =
        (n :: if descend n then n.children.flatMap (walked descend) else []).reverse ++ met := by
      -- What is met first ends up last, until the whole list is reversed.
      rw [visit_eq, collect]
      cases descend n with
      | false => rfl
      | true =>
        simp only [↓reduceIte, List.reverse_cons, List.append_assoc]
        exact hall (n :: met)
    have hwalked : n.walked descend =
        n :: if descend n then n.children.flatMap (walked descend) else [] := by
      rw [walked_eq_reverse, hvisit, List.append_nil, List.reverse_reverse]
    refine ⟨fun met => ?_, hwalked⟩
    rw [hvisit, hwalked]

theorem walked_eq (descend : Node → Bool) (n : Node) :
    n.walked descend = n :: if descend n then n.children.flatMap (walked descend) else [] :=
  (visit_collect descend n).2

theorem preorder_eq (n : Node) : n.preorder = n :: n.children.flatMap preorder :=
  walked_eq _ n

theorem mem_preorder_self (n : Node) : n ∈ n.preorder := by
  rw [preorder_eq]
  exact List.mem_cons_self

theorem mem_preorder_of_child {n c m : Node} (hc : c ∈ n.children) (hm : m ∈ c.preorder) :
    m ∈ n.preorder := by
  rw [preorder_eq]
  exact List.mem_cons_of_mem n (List.mem_flatMap.mpr ⟨c, hc, hm⟩)

theorem mem_preorder_trans {n m k : Node} (hm : m ∈ n.preorder) (hk : k ∈ m.preorder) :
    k ∈ n.preorder := by
  induction n using induct with
  | step n ih =>
    rw [preorder_eq] at hm
    rcases List.mem_cons.mp hm with rfl | hbelow
    · exact hk
    · obtain ⟨c, hc, hmc⟩ := List.mem_flatMap.mp hbelow
      exact mem_preorder_of_child hc (ih c hc hmc)

end Node

theorem flatMap_filter_eq {α β : Type} (test : α → Bool) (give : α → List β) (as : List α)
    (h : ∀ a ∈ as, test a = false → give a = []) :
    (as.filter test).flatMap give = as.flatMap give := by
  induction as with
  | nil => rfl
  | cons a as ih =>
    have has := ih fun b hb => h b (List.mem_cons_of_mem a hb)
    rw [List.flatMap_cons, ← has]
    cases ha : test a with
    | true => rw [List.filter_cons_of_pos ha, List.flatMap_cons]
    | false =>
      rw [List.filter_cons_of_neg (by simp [ha]), h a List.mem_cons_self ha, List.nil_append]

end SourceDeps.Script

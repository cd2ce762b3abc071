import SourceDeps.Proofs.Loop
import SourceDeps.Proofs.Script.Place
import SourceDeps.Script.Call

/-! A step of the walk takes the next node from the list of those that are still to be visited
(`Behind`), and the list gets shorter with every step. The search behind a node and the walk are
loops that need not end; that they do is part of what is proved. -/

namespace SourceDeps.Script

/-- The moves of a cursor, and the place and the node where it is. A move that is not possible gives
nothing. -/
structure CursorMoves (κ : Type) where
  here : κ → Place × Node
  firstChild? : κ → Option κ
  nextSibling? : κ → Option κ
  parent? : κ → Option κ

namespace CursorMoves

variable {κ σ : Type} (moves : CursorMoves κ)

/-- One move of the search for what follows a node: it ends at the next sibling, or without a cursor
where there is no parent, and else goes on from the parent. -/
def leaveStep (c : κ) : Part (Option κ ⊕ κ) :=
  match moves.nextSibling? c with
  | some d => Part.some (.inl (some d))
  | none =>
    match moves.parent? c with
    | some d => Part.some (.inr d)
    | none => Part.some (.inl none)

/-- The next sibling of a cursor's node, or else of the nearest node above that has one. -/
def leave : κ →. Option κ := stepwise moves.leaveStep

/-- One node of the walk. A callback is given the node and says whether to go below it. What it
remembers is its state, so that the answer may depend on all that it was given before. -/
def walkStep (callback : σ → Place × Node → σ × Bool) : κ × σ → Part (σ ⊕ (κ × σ))
  | (c, s) =>
    let answer := callback s (moves.here c)
    match if answer.2 then moves.firstChild? c else none with
    | some d => Part.some (.inr (d, answer.1))
    | none =>
      (moves.leave c).map fun
        | some d => .inr (d, answer.1)
        | none => .inl answer.1

/-- The walk from a cursor on. -/
def walk (callback : σ → Place × Node → σ × Bool) (c : κ) (s : σ) : Part σ :=
  stepwise (moves.walkStep callback) (c, s)

end CursorMoves

namespace Node

mutual

/-- The recursion over a node at a place: the node, and if the callback says so then its children
from left to right. -/
def traverse {σ : Type} (callback : σ → Place × Node → σ × Bool) (s : σ) (p : Place) : Node → σ
  | mk kind field span text missing faulty children =>
    match callback s (p, mk kind field span text missing faulty children) with
    | (s, true) => traverseFrom callback s p 0 children
    | (s, false) => s

/-- The recursion over children of the node at a place, the first of which has a given number. -/
def traverseFrom {σ : Type} (callback : σ → Place × Node → σ × Bool) (s : σ) (p : Place) (i : Nat) :
    List Node → σ
  | [] => s
  | c :: cs => traverseFrom callback (traverse callback s (p ++ [i]) c) p (i + 1) cs

end

/-- The node at a place together with the place. -/
def located? (root : Node) (p : Place) : Option (Place × Node) := (root.nodeAt? p).map (p, ·)

/-- Children of the node at a place, the first of which has a given number, with their places. -/
def locatedFrom (p : Place) (i : Nat) : List Node → List (Place × Node)
  | [] => []
  | c :: cs => (p ++ [i], c) :: locatedFrom p (i + 1) cs

variable {σ : Type} (callback : σ → Place × Node → σ × Bool)

/-- The recursion over nodes one after the other. -/
def traverseAll (s : σ) (ns : List (Place × Node)) : σ :=
  ns.foldl (fun s a => a.2.traverse callback s a.1) s

theorem traverseFrom_eq (s : σ) (p : Place) (i : Nat) (cs : List Node) :
    traverseFrom callback s p i cs = traverseAll callback s (locatedFrom p i cs) := by
  induction cs generalizing s i with
  | nil => rfl
  | cons c cs ih =>
    rw [traverseFrom, ih]
    rfl

theorem traverse_eq (s : σ) (p : Place) (n : Node) :
    n.traverse callback s p =
      if (callback s (p, n)).2 then
        traverseAll callback (callback s (p, n)).1 (locatedFrom p 0 n.children)
      else (callback s (p, n)).1 := by
  obtain ⟨kind, field, span, text, missing, faulty, children⟩ := n
  rw [traverse, Node.children, ← traverseFrom_eq]
  rcases callback s (p, mk kind field span text missing faulty children) with ⟨s, descend⟩
  cases descend <;> rfl

theorem traverseAll_append (s : σ) (ms ns : List (Place × Node)) :
    traverseAll callback s (ms ++ ns) = traverseAll callback (traverseAll callback s ms) ns :=
  List.foldl_append

theorem traverseAll_cons (s : σ) (p : Place) (n : Node) (ns : List (Place × Node)) :
    traverseAll callback s ((p, n) :: ns) =
      traverseAll callback (callback s (p, n)).1
        ((if (callback s (p, n)).2 then locatedFrom p 0 n.children else []) ++ ns) := by
  rw [traverseAll_append, traverseAll, List.foldl_cons, traverse_eq]
  cases (callback s (p, n)).2 <;> rfl

theorem located?_concat {root m : Node} {p : Place} (hm : root.nodeAt? p = some m) (i : Nat) :
    root.located? (p ++ [i]) = m.children[i]?.map (p ++ [i], ·) := by
  rw [located?, nodeAt?_append, hm, Option.bind_some, nodeAt?]
  cases m.children[i]? <;> rfl

theorem locatedFrom_drop (p : Place) (i : Nat) (cs : List Node) :
    locatedFrom p i (cs.drop i) =
      (cs[i]?.map (p ++ [i], ·)).toList ++ locatedFrom p (i + 1) (cs.drop (i + 1)) := by
  cases hc : cs[i]? with
  | none =>
    have hlen : cs.length ≤ i := List.getElem?_eq_none_iff.mp hc
    rw [List.drop_eq_nil_of_le hlen, List.drop_eq_nil_of_le (Nat.le_succ_of_le hlen)]
    rfl
  | some c =>
    obtain ⟨hlt, hc⟩ := List.getElem?_eq_some_iff.mp hc
    rw [List.drop_eq_getElem_cons hlt, hc]
    rfl

theorem map_snd_locatedFrom (p : Place) (i : Nat) (cs : List Node) :
    (locatedFrom p i cs).map Prod.snd = cs := by
  induction cs generalizing i with
  | nil => rfl
  | cons c cs ih => rw [locatedFrom, List.map_cons, ih]

end Node

/-- The nodes that are still to be visited behind a place, at or below the place where a walk
starts: the later siblings of its node, then those of the node above it, and so on. -/
inductive Behind (root : Node) (base : Place) : Place → List (Place × Node) → Prop where
  | start : Behind root base base []
  | child {p : Place} {m : Node} {i : Nat} {ns : List (Place × Node)}
      (hm : root.nodeAt? p = some m) (hp : Behind root base p ns) :
      Behind root base (p ++ [i]) (Node.locatedFrom p (i + 1) (m.children.drop (i + 1)) ++ ns)

theorem Behind.base_prefix {root : Node} {base p : Place} {ns : List (Place × Node)}
    (h : Behind root base p ns) : base <+: p := by
  induction h with
  | start => exact List.prefix_rfl
  | child _ _ ih => exact ih.trans (List.prefix_append _ _)

namespace CursorMoves

variable {κ σ : Type} {moves : CursorMoves κ} {root : Node} {base : Place}

/-- What a cursor does that was made for the node at a place: its moves lead to the nodes of the
tree that are called so, and at the place where it was made there is no sibling and no parent to go
to. -/
structure Explores (moves : CursorMoves κ) (root : Node) (base : Place) : Prop where
  firstChild : ∀ {c p m}, moves.here c = (p, m) → root.nodeAt? p = some m → base <+: p →
    (moves.firstChild? c).map moves.here = root.located? (p ++ [0])
  nextSibling : ∀ {c p i m}, moves.here c = (p ++ [i], m) → root.nodeAt? (p ++ [i]) = some m →
    base <+: p → (moves.nextSibling? c).map moves.here = root.located? (p ++ [i + 1])
  parent : ∀ {c p i m}, moves.here c = (p ++ [i], m) → root.nodeAt? (p ++ [i]) = some m →
    base <+: p → (moves.parent? c).map moves.here = root.located? p
  nextSibling_base : ∀ {c m}, moves.here c = (base, m) → moves.nextSibling? c = none
  parent_base : ∀ {c m}, moves.here c = (base, m) → moves.parent? c = none

/-- The nodes still to be visited from a cursor on are its own and those behind it. -/
def Pending (moves : CursorMoves κ) (root : Node) (base : Place) (c : κ)
    (ns : List (Place × Node)) : Prop :=
  ∃ p m ns', moves.here c = (p, m) ∧ root.nodeAt? p = some m ∧ Behind root base p ns' ∧
    ns = (p, m) :: ns'

/-- The search behind a node ends, and finds the first of the nodes behind it. -/
theorem Explores.leave_eq (h : moves.Explores root base) {c : κ} {p : Place} {m : Node}
    {ns : List (Place × Node)} (hc : moves.here c = (p, m)) (hm : root.nodeAt? p = some m)
    (hns : Behind root base p ns) :
    (moves.leave c = Part.some none ∧ ns = []) ∨
      ∃ d, moves.leave c = Part.some (some d) ∧ moves.Pending root base d ns := by
  induction hns generalizing c m with
  | start =>
    have hstep : moves.leaveStep c = Part.some (.inl none) := by
      rw [leaveStep, h.nextSibling_base hc, h.parent_base hc]
    exact .inl ⟨stepwise_done hstep, rfl⟩
  | @child p n i ns hn hp ih =>
    have hnext := h.nextSibling hc hm hp.base_prefix
    rw [Node.located?_concat hn] at hnext
    rw [Node.locatedFrom_drop]
    cases he : n.children[i + 1]? with
    | some e =>
      rw [he, Option.map_some, Option.map_eq_some_iff] at hnext
      obtain ⟨d, hd, hhere⟩ := hnext
      have hat : root.nodeAt? (p ++ [i + 1]) = some e := by
        rw [Node.nodeAt?_append, hn, Option.bind_some, Node.nodeAt?, he]
        rfl
      have hstep : moves.leaveStep c = Part.some (.inl (some d)) := by rw [leaveStep, hd]
      exact .inr ⟨d, stepwise_done hstep, p ++ [i + 1], e, _, hhere, hat, .child hn hp, rfl⟩
    | none =>
      -- There is no sibling, and behind the parent there is the rest.
      rw [he, Option.map_none, Option.map_eq_none_iff] at hnext
      have hup := h.parent hc hm hp.base_prefix
      rw [Node.located?, hn, Option.map_some, Option.map_eq_some_iff] at hup
      obtain ⟨d, hd, hhere⟩ := hup
      have hnil : n.children.drop (i + 2) = [] := by
        have hlen := List.getElem?_eq_none_iff.mp he
        exact List.drop_eq_nil_of_le (Nat.le_succ_of_le hlen)
      have hstep : moves.leaveStep c = Part.some (.inr d) := by rw [leaveStep, hnext, hd]
      have hleave : moves.leave c = moves.leave d := stepwise_next hstep
      rw [hleave, hnil]
      exact ih hhere hn

/-- The nodes at and below the nodes of a list. -/
def below (ns : List (Place × Node)) : List Node := ns.flatMap fun a => a.2.preorder

theorem below_locatedFrom (p : Place) (i : Nat) (cs : List Node) :
    below (Node.locatedFrom p i cs) = cs.flatMap Node.preorder := by
  rw [below, ← List.flatMap_map, Node.map_snd_locatedFrom]

/-- When a node is done there are fewer nodes still to be visited. -/
theorem length_below_lt (descend : Bool) (p : Place) (m : Node) (rest : List (Place × Node)) :
    (below ((if descend then Node.locatedFrom p 0 m.children else []) ++ rest)).length <
      (below ((p, m) :: rest)).length := by
  have hcons : below ((p, m) :: rest) = m :: (m.children.flatMap Node.preorder ++ below rest) := by
    rw [below, List.flatMap_cons, Node.preorder_eq, List.cons_append]
    rfl
  have happend (ns : List (Place × Node)) : below (ns ++ rest) = below ns ++ below rest :=
    List.flatMap_append
  rw [hcons, happend, List.length_cons, List.length_append, List.length_append]
  cases descend with
  | true =>
    rw [if_pos rfl, below_locatedFrom]
    exact Nat.lt_succ_self _
  | false =>
    rw [if_neg Bool.false_ne_true]
    simp only [below, List.flatMap_nil, List.length_nil]
    omega

/-- Where the walk goes from a cursor: to the first of the nodes that are still to be visited when
its node is done. -/
theorem Explores.walkStep_cases (h : moves.Explores root base)
    (callback : σ → Place × Node → σ × Bool) (s : σ) {c : κ} {p : Place} {m : Node}
    {rest : List (Place × Node)} (hc : moves.here c = (p, m)) (hm : root.nodeAt? p = some m)
    (hrest : Behind root base p rest) :
    let next := (if (callback s (p, m)).2 then Node.locatedFrom p 0 m.children else []) ++ rest
    (next = [] ∧ moves.walkStep callback (c, s) = Part.some (.inl (callback s (p, m)).1)) ∨
      ∃ d, moves.Pending root base d next ∧
        moves.walkStep callback (c, s) = Part.some (.inr (d, (callback s (p, m)).1)) := by
  -- Where the walk does not go below the node, it goes on behind it.
  have hleave (hdown : (if (callback s (p, m)).2 then moves.firstChild? c else none) = none) :
      (rest = [] ∧ moves.walkStep callback (c, s) = Part.some (.inl (callback s (p, m)).1)) ∨
        ∃ d, moves.Pending root base d rest ∧
          moves.walkStep callback (c, s) = Part.some (.inr (d, (callback s (p, m)).1)) := by
    simp only [walkStep, hc, hdown]
    rcases h.leave_eq hc hm hrest with ⟨hnone, hnil⟩ | ⟨d, hd, hpending⟩
    · rw [hnone, Part.map_some]
      exact .inl ⟨hnil, rfl⟩
    · rw [hd, Part.map_some]
      exact .inr ⟨d, hpending, rfl⟩
  cases hdescend : (callback s (p, m)).2 with
  | false =>
    rw [hdescend] at hleave
    exact hleave rfl
  | true =>
    have hfirst := h.firstChild hc hm hrest.base_prefix
    rw [Node.located?_concat hm] at hfirst
    cases hchildren : m.children with
    | nil =>
      rw [hchildren, List.getElem?_nil, Option.map_none, Option.map_eq_none_iff] at hfirst
      rw [hdescend, if_pos rfl] at hleave
      exact hleave hfirst
    | cons e es =>
      rw [hchildren, List.getElem?_cons_zero, Option.map_some, Option.map_eq_some_iff] at hfirst
      obtain ⟨d, hd, hhere⟩ := hfirst
      have hat : root.nodeAt? (p ++ [0]) = some e := by
        rw [Node.nodeAt?_append, hm, Option.bind_some, Node.nodeAt?, hchildren]
        rfl
      have hbehind : Behind root base (p ++ [0]) (Node.locatedFrom p 1 es ++ rest) := by
        have hchild := Behind.child (i := 0) hm hrest
        rw [hchildren] at hchild
        exact hchild
      refine .inr ⟨d, ⟨p ++ [0], e, _, hhere, hat, hbehind, rfl⟩, ?_⟩
      simp only [walkStep, hc, hdescend, if_pos, hd]

/-- From a cursor on the walk ends, and is the recursion over all that is still to be visited. -/
theorem Explores.walk_eq_traverseAll (h : moves.Explores root base)
    (callback : σ → Place × Node → σ × Bool) (s : σ) {c : κ} {ns : List (Place × Node)}
    (hc : moves.Pending root base c ns) :
    moves.walk callback c s = Part.some (Node.traverseAll callback s ns) := by
  obtain ⟨p, m, rest, hhere, hm, hrest, rfl⟩ := hc
  have hlt := length_below_lt (callback s (p, m)).2 p m rest
  rw [Node.traverseAll_cons]
  rcases h.walkStep_cases callback s hhere hm hrest with ⟨hnil, hstep⟩ | ⟨d, hd, hstep⟩
  · rw [walk, stepwise_done hstep, hnil]
    rfl
  · rw [walk, stepwise_next hstep]
    exact h.walk_eq_traverseAll callback _ hd
termination_by (below ns).length

end CursorMoves

namespace Node

variable {σ : Type}

/-- The recursion that takes no notice of places is the recursion beside the walk that runs. -/
theorem traverse_eq_visit (step : σ → Node → σ × Bool) (s : σ) (p : Place) (n : Node) :
    n.traverse (fun s a => step s a.2) s p = visit step s n := by
  induction n using induct generalizing s p with
  | step n ih =>
    have hall (cs : List Node) (hcs : ∀ c ∈ cs, c ∈ n.children) (i : Nat) (s : σ) :
        traverseAll (fun s a => step s a.2) s (locatedFrom p i cs) = visitAll step s cs := by
      induction cs generalizing i s with
      | nil => rw [visitAll]; rfl
      | cons c cs ihcs =>
        obtain ⟨hc, hcs⟩ := List.forall_mem_cons.mp hcs
        rw [visitAll, ← ih c hc s (p ++ [i]), ← ihcs hcs (i + 1)]
        rfl
    rw [traverse_eq, visit_eq, hall n.children fun c hc => hc]

/-- A callback that also remembers what it was given. -/
def recording (callback : σ → Place × Node → σ × Bool) (s : σ × List (Place × Node))
    (a : Place × Node) : (σ × List (Place × Node)) × Bool :=
  (((callback s.1 a).1, s.2 ++ [a]), (callback s.1 a).2)

/-- The nodes of a list are at or below a place, in the order of a walk and none twice. -/
structure VisitsBelow (root : Node) (p : Place) (visited : List (Place × Node)) : Prop where
  pairwise : visited.Pairwise fun a b => a.1 < b.1
  below : ∀ a ∈ visited, p <+: a.1 ∧ root.nodeAt? a.1 = some a.2

theorem lt_of_concat_prefix {p a b : Place} {i j : Nat} (hij : i < j) (ha : p ++ [i] <+: a)
    (hb : p ++ [j] <+: b) : a < b := by
  obtain ⟨q, rfl⟩ := ha
  obtain ⟨r, rfl⟩ := hb
  rw [List.append_assoc, List.append_assoc]
  exact List.append_left_lt (List.cons_lt_cons_iff.mpr (.inl hij))

theorem lt_of_concat_prefix_self {p a : Place} {i : Nat} (ha : p ++ [i] <+: a) : p < a := by
  obtain ⟨q, rfl⟩ := ha
  have hlt : p ++ [] < p ++ i :: q := List.append_left_lt (List.nil_lt_cons i q)
  rwa [List.append_nil, List.append_cons] at hlt

/-- Remembering what it was given does not change what a callback does on the way through a node at
a place, and what it is given there are nodes at and below the place, in order. -/
def RecordsBelow (callback : σ → Place × Node → σ × Bool) (root : Node) (p : Place) (n : Node) :
    Prop :=
  ∀ s seen, ∃ visited, n.traverse (recording callback) (s, seen) p =
    (n.traverse callback s p, seen ++ visited) ∧ VisitsBelow root p visited

variable {callback : σ → Place × Node → σ × Bool} {root : Node}

theorem traverseAll_recording {p : Place} {i : Nat} {cs : List Node}
    (hcs : ∀ j c, cs[j]? = some c → RecordsBelow callback root (p ++ [i + j]) c) (s : σ)
    (seen : List (Place × Node)) :
    ∃ visited, traverseAll (recording callback) (s, seen) (locatedFrom p i cs) =
        (traverseAll callback s (locatedFrom p i cs), seen ++ visited) ∧
      visited.Pairwise (fun a b => a.1 < b.1) ∧
      ∀ a ∈ visited, (∃ j, p ++ [i + j] <+: a.1) ∧ root.nodeAt? a.1 = some a.2 := by
  induction cs generalizing i s seen with
  | nil =>
    refine ⟨[], ?_, List.Pairwise.nil, List.forall_mem_nil _⟩
    rw [List.append_nil]
    rfl
  | cons c cs ih =>
    have hrest : ∀ j d, cs[j]? = some d → RecordsBelow callback root (p ++ [i + 1 + j]) d := by
      intro j d hd
      rw [Nat.add_assoc, Nat.add_comm 1 j]
      exact hcs (j + 1) d hd
    obtain ⟨first, hfirst, hin⟩ := hcs 0 c rfl s seen
    obtain ⟨others, hothers, hpairs, hlater⟩ := ih hrest (c.traverse callback s (p ++ [i]))
      (seen ++ first)
    refine ⟨first ++ others, ?_, ?_, ?_⟩
    · rw [locatedFrom, traverseAll, traverseAll, List.foldl_cons, List.foldl_cons,
        ← List.append_assoc]
      rw [Nat.add_zero] at hfirst
      rw [hfirst]
      exact hothers
    · -- What is given below one child stands before what is given below later ones.
      rw [List.pairwise_append]
      refine ⟨hin.pairwise, hpairs, fun a ha b hb => ?_⟩
      obtain ⟨⟨j, hj⟩, -⟩ := hlater b hb
      exact lt_of_concat_prefix (by omega) (hin.below a ha).1 hj
    · intro a ha
      rcases List.mem_append.mp ha with ha | ha
      · exact ⟨⟨0, (hin.below a ha).1⟩, (hin.below a ha).2⟩
      · obtain ⟨⟨j, hj⟩, hat⟩ := hlater a ha
        exact ⟨⟨1 + j, by rwa [← Nat.add_assoc]⟩, hat⟩

theorem traverse_recording (callback : σ → Place × Node → σ × Bool) {n : Node} {p : Place}
    (hn : root.nodeAt? p = some n) : RecordsBelow callback root p n := by
  induction n using induct generalizing p with
  | step n ih =>
    intro s seen
    have hself : p <+: p ∧ root.nodeAt? p = some n := ⟨List.prefix_rfl, hn⟩
    rw [traverse_eq, traverse_eq, recording]
    cases (callback s (p, n)).2 with
    | false => exact ⟨[(p, n)], rfl, List.pairwise_singleton _ _, by simpa using hself⟩
    | true =>
      have hchildren : ∀ j c, n.children[j]? = some c →
          RecordsBelow callback root (p ++ [0 + j]) c := by
        intro j c hc
        apply ih c (List.mem_of_getElem? hc)
        rw [nodeAt?_append, hn, Option.bind_some, Nat.zero_add, nodeAt?, hc]
        rfl
      obtain ⟨others, hothers, hpairs, hlater⟩ :=
        traverseAll_recording hchildren (callback s (p, n)).1 (seen ++ [(p, n)])
      refine ⟨(p, n) :: others, ?_, ?_, ?_⟩
      · rw [if_pos rfl, if_pos rfl, hothers, List.append_assoc, List.singleton_append]
      · refine List.pairwise_cons.mpr ⟨fun a ha => ?_, hpairs⟩
        obtain ⟨⟨j, hj⟩, -⟩ := hlater a ha
        exact lt_of_concat_prefix_self hj
      · rw [List.forall_mem_cons]
        refine ⟨hself, fun a ha => ?_⟩
        obtain ⟨⟨j, hj⟩, hat⟩ := hlater a ha
        exact ⟨(List.prefix_append p _).trans hj, hat⟩

end Node

namespace CursorMoves

/-- The walk of a cursor from a node of a tree ends, and gives its callback what the recursion over
that node gives, whatever the callback remembers and answers: nodes at and below that node, in the
order of the tree and none twice. The walk that runs is the same recursion. -/
theorem walk_eq_traverse {κ σ : Type} (moves : CursorMoves κ) (root n : Node) (base : Place)
    (start : κ) (callback : σ → Place × Node → σ × Bool) (s : σ)
    (hmoves : moves.Explores root base) (hn : root.nodeAt? base = some n)
    (hstart : moves.here start = (base, n)) :
    moves.walk callback start s = Part.some (n.traverse callback s base) ∧
    (∃ visited, moves.walk (Node.recording callback) start (s, []) =
        Part.some (n.traverse callback s base, visited) ∧
      n.traverse (Node.recording callback) (s, []) base =
        (n.traverse callback s base, visited) ∧
      Node.VisitsBelow root base visited) ∧
    ∀ step : σ → Node → σ × Bool,
      n.walkPruned step s = n.traverse (fun s a => step s a.2) s base := by
  have hpending : moves.Pending root base start [(base, n)] :=
    ⟨base, n, [], hstart, hn, .start, rfl⟩
  obtain ⟨visited, hvisited, hbelow⟩ := Node.traverse_recording callback hn s []
  refine ⟨hmoves.walk_eq_traverseAll callback s hpending, ⟨visited, ?_, hvisited, hbelow⟩, ?_⟩
  · rw [hmoves.walk_eq_traverseAll _ _ hpending]
    exact congrArg Part.some hvisited
  · intro step
    rw [Node.walkPruned_eq_visit, Node.traverse_eq_visit]

/-- A cursor made for the node at a place that remembers its place and its node. -/
def placed (root : Node) (base : Place) : CursorMoves (Place × Node) where
  here := id
  firstChild? c := root.located? (c.1 ++ [0])
  nextSibling? c :=
    if c.1 = base then none
    else c.1.getLast?.bind fun i => root.located? (c.1.dropLast ++ [i + 1])
  parent? c := if c.1 = base then none else root.located? c.1.dropLast

theorem explores_placed (root : Node) (base : Place) : (placed root base).Explores root base := by
  have hne {p : Place} {i : Nat} (hp : base <+: p) : p ++ [i] ≠ base := by
    rintro rfl
    have hle := hp.length_le
    rw [List.length_append, List.length_singleton] at hle
    omega
  refine ⟨?_, ?_, ?_, ?_, ?_⟩
  · rintro c p m rfl - -
    exact Option.map_id_apply
  · rintro c p i m rfl - hp
    simp only [placed, hne hp, if_false, List.getLast?_concat, Option.bind_some,
      List.dropLast_concat, Option.map_id_apply]
  · rintro c p i m rfl - hp
    simp only [placed, hne hp, if_false, List.dropLast_concat, Option.map_id_apply]
  · rintro c m rfl
    exact if_pos rfl
  · rintro c m rfl
    exact if_pos rfl

end CursorMoves

/-- A call of a name at a byte of a text. -/
def callOf (byte : Nat) (name : String) (stop : Nat) (arguments : List Node) : Node :=
  .mk .callExpression none ⟨byte, stop⟩ "" false false [
    .mk .identifier (some .function) ⟨byte, byte + 1⟩ name false false [],
    .mk .arguments (some .arguments) ⟨byte + 1, stop⟩ "" false false
      (.mk (.mark "(") none ⟨byte + 1, byte + 2⟩ "(" false false [] ::
        (arguments ++ [.mk (.mark ")") none ⟨stop - 1, stop⟩ ")" false false []]))]

/-- The program of the text `a();f(g());h()`. -/
def threeStatements : Node :=
  .mk .program none ⟨0, 14⟩ "" false false [
    .mk .expressionStatement none ⟨0, 4⟩ "" false false [
      callOf 0 "a" 3 [], .mk (.mark ";") none ⟨3, 4⟩ ";" false false []],
    .mk .expressionStatement none ⟨4, 11⟩ "" false false [
      callOf 4 "f" 10 [callOf 6 "g" 9 []], .mk (.mark ";") none ⟨10, 11⟩ ";" false false []],
    .mk .expressionStatement none ⟨11, 14⟩ "" false false [callOf 11 "h" 14 []]]

/-- Takes down the names that are called, and does not go below a call. -/
def takeName (names : List String) (a : Place × Node) : List String × Bool :=
  (names ++ a.2.calleeName?.toList, a.2.calleeName?.isNone)

/-- From the statement in the middle on, the walk takes down the name called there, and neither the
call inside that call nor those in the statements around. -/
theorem threeStatements_walked : ∃ n, threeStatements.nodeAt? [1] = some n ∧
    (CursorMoves.placed threeStatements [1]).Explores threeStatements [1] ∧
    (CursorMoves.placed threeStatements [1]).walk takeName ([1], n) [] = Part.some ["f"] := by
  obtain ⟨n, hn⟩ : ∃ n, threeStatements.nodeAt? [1] = some n := ⟨_, rfl⟩
  have hmoves := CursorMoves.explores_placed threeStatements [1]
  have hwalk := CursorMoves.walk_eq_traverse (CursorMoves.placed threeStatements [1])
    threeStatements n [1] ([1], n) takeName [] hmoves hn rfl
  have hnames : n.traverse takeName [] [1] = ["f"] := by
    cases hn
    decide +kernel
  exact ⟨n, hn, hmoves, hnames ▸ hwalk.1⟩

end SourceDeps.Script

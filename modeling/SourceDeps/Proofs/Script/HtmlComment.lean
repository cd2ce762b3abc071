import Mathlib.Data.List.Find
import SourceDeps.Proofs.Script.Likeness

/-! HTML comments count as arguments, unlike other comments. So what is asked of a call is the same
without them only where it does not depend on which argument is the first, or none of them is. -/

namespace SourceDeps.Script

namespace Node

def isHtmlComment (n : Node) : Bool := n.kind == .htmlComment

/-- To a test that no HTML comment passes it does not matter whether these are left out first. -/
theorem not_isHtmlComment_and {test : Node → Bool}
    (htest : ∀ k : Node, k.kind = .htmlComment → test k = false) (k : Node) :
    (!k.isHtmlComment && test k) = test k := by
  cases hk : k.isHtmlComment with
  | false => rfl
  | true =>
    have hkind : k.kind = .htmlComment := by simpa [isHtmlComment] using hk
    rw [htest k hkind]
    rfl

mutual

/-- A tree without the HTML comments that stand in the argument lists of its calls. The flag says
whether the tree itself is the argument list of a call. -/
def cleared (isList : Bool) : Node → Node
  | mk kind field span text missing faulty children =>
    mk kind field span text missing faulty (clearedAll isList (kind == .callExpression) children)

def clearedAll (inList inCall : Bool) : List Node → List Node
  | [] => []
  | n :: ns =>
    if inList && n.isHtmlComment then clearedAll inList inCall ns
    else cleared (inCall && n.field == some .arguments) n :: clearedAll inList inCall ns

end

/-- A child of a node, cleared as its place in the node demands. -/
def clearedIn (n c : Node) : Node := c.cleared (n.kind == .callExpression && c.field == some .arguments)

def isKept (isList : Bool) (c : Node) : Bool := !(isList && c.isHtmlComment)

theorem kind_of_isKept_eq_false {isList : Bool} {c : Node} (h : isKept isList c = false) :
    c.kind = .htmlComment := by
  simp only [isKept, Bool.not_eq_false', Bool.and_eq_true, isHtmlComment, beq_iff_eq] at h
  exact h.2

theorem clearedAll_eq (inList inCall : Bool) (ns : List Node) :
    clearedAll inList inCall ns =
      (ns.filter (isKept inList)).map fun c => c.cleared (inCall && c.field == some .arguments) := by
  induction ns with
  | nil => rfl
  | cons n ns ih =>
    rw [clearedAll, ih]
    cases hdrop : inList && n.isHtmlComment with
    | true => rw [if_pos rfl, List.filter_cons_of_neg (by simp [isKept, hdrop])]
    | false =>
      rw [if_neg Bool.false_ne_true, List.filter_cons_of_pos (by simp [isKept, hdrop]),
        List.map_cons]

theorem cleared_eq (isList : Bool) (n : Node) : n.cleared isList =
    mk n.kind n.field n.span n.text n.isMissing n.hasError
      ((n.children.filter (isKept isList)).map n.clearedIn) := by
  cases n
  rw [cleared, clearedAll_eq]
  rfl

theorem children_cleared (isList : Bool) (n : Node) :
    (n.cleared isList).children = (n.children.filter (isKept isList)).map n.clearedIn := by
  rw [cleared_eq]
  rfl

theorem sameHead_cleared (isList : Bool) (n : Node) : SameHead n (n.cleared isList) := by
  rw [cleared_eq]
  exact ⟨⟨rfl, rfl, fun _ => rfl⟩, rfl⟩

theorem sameHead_clearedIn (n c : Node) : SameHead c (n.clearedIn c) := sameHead_cleared _ c

/-- An HTML comment is no part of its parent that matters, and has nothing below it. -/
def IsPlainHtml (n : Node) : Prop := n.kind = .htmlComment → n.field = none ∧ n.children = []

/-- An HTML comment is the first argument of a call. -/
def BeginsWithHtml (n : Node) : Prop :=
  ∃ first, n.callArguments.head? = some first ∧ first.kind = .htmlComment

/-- A tree and what it is when cleared, where all nodes of the tree have a property. -/
structure ClearsTo (P : Node → Prop) (m n : Node) : Prop where
  holds : ∀ k ∈ m.preorder, P k
  cleared : ∃ isList, n = m.cleared isList

namespace ClearsTo

variable {P : Node → Prop} {m n : Node}

theorem self (h : ClearsTo P m n) : P m := h.holds m (mem_preorder_self m)

theorem sameHead (h : ClearsTo P m n) : SameHead m n := by
  obtain ⟨isList, rfl⟩ := h.cleared
  exact sameHead_cleared isList m

theorem below (h : ClearsTo P m n) {c : Node} (hc : c ∈ m.preorder) (isList : Bool) :
    ClearsTo P c (c.cleared isList) :=
  ⟨fun _ hk => h.holds _ (mem_preorder_trans hc hk), isList, rfl⟩

theorem child (h : ClearsTo P m n) {c : Node} (hc : c ∈ m.children) (isList : Bool) :
    ClearsTo P c (c.cleared isList) :=
  h.below (mem_preorder_of_child hc (mem_preorder_self c)) isList

theorem children_rel (h : ClearsTo P m n) : ∃ isList,
    List.Forall₂ (ClearsTo P) (m.children.filter (isKept isList)) n.children := by
  obtain ⟨isList, rfl⟩ := h.cleared
  refine ⟨isList, ?_⟩
  rw [children_cleared, List.forall₂_map_right_iff, List.forall₂_same]
  intro c hc
  exact h.child (List.mem_of_mem_filter hc) _

/-- What is gathered from the children is the same if HTML comments give nothing. -/
theorem flatMap_children (h : ClearsTo P m n) {α : Type} {give : Node → List α}
    (hgive : ∀ c d, ClearsTo P c d → give d = give c)
    (hhtml : ∀ c : Node, c.kind = .htmlComment → give c = []) :
    n.children.flatMap give = m.children.flatMap give := by
  obtain ⟨isList, rfl⟩ := h.cleared
  have hkept : (m.children.filter (isKept isList)).flatMap give = m.children.flatMap give := by
    apply flatMap_filter_eq
    intro c _ hc
    exact hhtml c (kind_of_isKept_eq_false hc)
  rw [children_cleared, List.flatMap_map, ← hkept]
  refine List.flatMap_congr fun c hc => ?_
  exact hgive c _ (h.child (List.mem_of_mem_filter hc) _)

theorem any_children (h : ClearsTo P m n) {test : Node → Bool}
    (htest : ∀ c d, ClearsTo P c d → test d = test c)
    (hhtml : ∀ c : Node, c.kind = .htmlComment → test c = false) :
    n.children.any test = m.children.any test := by
  have hgather (k : Node) :
      k.children.any test = (k.children.flatMap fun c => if test c then [()] else []).any
        fun _ => true := by
    rw [List.any_flatMap]
    refine congrArg k.children.any (funext fun c => ?_)
    cases test c <;> rfl
  rw [hgather, hgather, h.flatMap_children]
  · intro c d hcd
    rw [htest c d hcd]
  · intro c hc
    rw [hhtml c hc]
    rfl

theorem stringValue?_eq (h : ClearsTo P m n) : n.stringValue? = m.stringValue? := by
  have hsubstitution : n.namedChildren.any (·.kind == .templateSubstitution) =
      m.namedChildren.any (·.kind == .templateSubstitution) := by
    rw [namedChildren, namedChildren, List.any_filter, List.any_filter]
    apply h.any_children
    · intro c d hcd
      rw [hcd.sameHead.kind]
    · intro c hc
      rw [hc]
      rfl
  rw [stringValue?, stringValue?, hsubstitution, ← h.sameHead.kind, ← h.sameHead.text]

theorem arrayStrings_eq (h : ClearsTo P m n) : n.arrayStrings = m.arrayStrings := by
  have hgather (k : Node) : k.arrayStrings =
      k.children.flatMap fun c => if c.kind.isNamed then c.stringValue?.toList else [] := by
    rw [arrayStrings, namedChildren, List.filterMap_filter, List.filterMap_eq_flatMap_toList]
    refine List.flatMap_congr fun c _ => ?_
    cases c.kind.isNamed <;> rfl
  rw [hgather, hgather, h.flatMap_children]
  · intro c d hcd
    rw [hcd.stringValue?_eq, hcd.sameHead.kind]
  · intro c hc
    rw [stringValue?, hc]
    rfl

/-- No part of a node that matters goes, since HTML comments are none. -/
theorem child?_eq (h : ClearsTo P m n) (hplain : ∀ k, P k → k.IsPlainHtml) (f : Field) :
    n.child? f = (m.child? f).map m.clearedIn := by
  obtain ⟨isList, rfl⟩ := h.cleared
  rw [child?, child?, children_cleared, List.find?_map, List.find?_filter]
  congr 1
  apply List.find?_congr
  intro c hc
  have hfield : (m.clearedIn c).field = c.field := (sameHead_clearedIn m c).field.symm
  rw [Function.comp_apply, hfield]
  cases hkept : isKept isList c with
  | true => simp [Bool.beq_eq_decide_eq]
  | false =>
    have hkind := kind_of_isKept_eq_false hkept
    have hnone := (hplain c (h.child hc false).self hkind).1
    simp [hnone]

theorem child?_rel (h : ClearsTo P m n) (hplain : ∀ k, P k → k.IsPlainHtml) (f : Field) :
    Option.Rel SameHead (m.child? f) (n.child? f) := by
  rw [h.child?_eq hplain]
  cases m.child? f with
  | none => exact .none
  | some c => exact .some (sameHead_clearedIn m c)

/-- The arguments are those that are no HTML comments. -/
theorem callArguments_rel (h : ClearsTo P m n) (hplain : ∀ k, P k → k.IsPlainHtml)
    (hcall : m.kind = .callExpression) :
    List.Forall₂ (ClearsTo P) (m.callArguments.filter (!isHtmlComment ·)) n.callArguments := by
  rw [callArguments_eq, callArguments_eq, h.child?_eq hplain]
  cases hargs : m.child? .arguments with
  | none => exact .nil
  | some args =>
    have hmem : args ∈ m.children := List.mem_of_find?_eq_some hargs
    have hfield : args.field = some .arguments := by simpa using List.find?_some hargs
    have hlist : m.clearedIn args = args.cleared true := by
      rw [clearedIn, hcall, hfield]
      rfl
    have hkept : isKept true = (!isHtmlComment ·) := by
      funext c
      rw [isKept, Bool.true_and]
    have hargument : isArgument ∘ args.clearedIn = isArgument := by
      funext c
      exact (sameHead_clearedIn args c).isArgument_eq.symm
    have hsame : ((args.cleared true).children.filter isArgument) =
        ((args.children.filter isArgument).filter (!isHtmlComment ·)).map args.clearedIn := by
      rw [children_cleared, hkept, List.filter_map, hargument, List.filter_filter,
        List.filter_filter]
      simp only [Bool.and_comm]
    simp only [Option.map_some, hlist, hsame, List.forall₂_map_right_iff, List.forall₂_same]
    intro c hc
    have hchild := List.mem_of_mem_filter (List.mem_of_mem_filter hc)
    exact (h.child hmem true).child hchild _

theorem isCallOf_eq (h : ClearsTo P m n) (hplain : ∀ k, P k → k.IsPlainHtml) (name : String) :
    n.isCallOf name = m.isCallOf name :=
  (Node.isCallOf_eq (fun _ _ => SameHead.toSameRole) h.sameHead.kind
    (h.child?_rel hplain .function) name).symm

theorem isDynamicImport_eq (h : ClearsTo P m n) (hplain : ∀ k, P k → k.IsPlainHtml) :
    n.isDynamicImport = m.isDynamicImport := by
  have hcallee := h.child?_rel hplain .function
  rw [isDynamicImport, isDynamicImport, h.sameHead.kind]
  generalize m.child? .function = found at hcallee
  generalize n.child? .function = found' at hcallee
  cases hcallee with
  | none => rfl
  | some hcd => simp only [hcd.kind]

/-- Where no HTML comment is the first argument, the first arguments belong together, and the others
but for HTML comments. -/
theorem callArguments_cases (h : ClearsTo P m n) (hplain : ∀ k, P k → k.IsPlainHtml)
    (hcall : m.kind = .callExpression) (hfirst : ¬m.BeginsWithHtml) :
    (m.callArguments = [] ∧ n.callArguments = []) ∨
      ∃ first rest first' rest', m.callArguments = first :: rest ∧
        n.callArguments = first' :: rest' ∧ ClearsTo P first first' ∧
        List.Forall₂ (ClearsTo P) (rest.filter (!isHtmlComment ·)) rest' := by
  have hargs := h.callArguments_rel hplain hcall
  generalize hn : n.callArguments = args' at hargs
  cases hm : m.callArguments with
  | nil =>
    rw [hm] at hargs
    cases hargs
    exact .inl ⟨rfl, rfl⟩
  | cons first rest =>
    have hhtml : first.isHtmlComment = false := by
      apply eq_false_of_ne_true
      intro hhtml
      exact hfirst ⟨first, by rw [hm]; rfl, by simpa [isHtmlComment] using hhtml⟩
    rw [hm, List.filter_cons_of_pos (by simp [hhtml])] at hargs
    cases hargs with
    | @cons _ first' _ rest' hhead htail =>
      exact .inr ⟨first, rest, first', rest', rfl, rfl, hhead, htail⟩

theorem firstString?_eq (h : ClearsTo P m n) (hplain : ∀ k, P k → k.IsPlainHtml)
    (hcall : m.kind = .callExpression) (hfirst : ¬m.BeginsWithHtml) :
    n.firstString? = m.firstString? := by
  rw [firstString?, firstString?]
  rcases h.callArguments_cases hplain hcall hfirst with
    ⟨hm, hn⟩ | ⟨first, rest, first', rest', hm, hn, hhead, -⟩
  · rw [hm, hn]
  · rw [hm, hn, List.head?_cons, List.head?_cons, Option.bind_some, Option.bind_some,
      hhead.stringValue?_eq]

end ClearsTo

theorem firstString?_of_beginsWithHtml {n : Node} (h : n.BeginsWithHtml) :
    n.firstString? = none := by
  obtain ⟨first, hfirst, hkind⟩ := h
  rw [firstString?, hfirst, Option.bind_some, stringValue?, hkind]

/-- What a walk gathers from a tree is related to what it gathers from the cleared tree, if what is
gathered from single nodes is, and if HTML comments give nothing. -/
theorem simulates_clearsTo {α : Type} {P : Node → Prop} {S : List α → List α → Prop}
    {descend : Node → Bool} {give : Node → List α} (hplain : ∀ k, P k → k.IsPlainHtml)
    (hnil : S [] []) (happend : ∀ {as bs cs ds}, S as bs → S cs ds → S (as ++ cs) (bs ++ ds))
    (hdescend : ∀ m n, ClearsTo P m n → descend n = descend m)
    (hgive : ∀ m n, ClearsTo P m n → S (give m) (give n))
    (hhtml : ∀ k : Node, k.kind = .htmlComment → give k = []) :
    Simulates (ClearsTo P) S descend give where
  nil := hnil
  append := happend
  descend_eq h := (hdescend _ _ h).symm
  give_rel h := hgive _ _ h
  children_rel {m n} h _ := by
    obtain ⟨isList, hchildren⟩ := h.children_rel
    refine ⟨isKept isList, hchildren, fun c hc hdropped => ?_⟩
    -- An HTML comment is all that the walk meets there.
    have hkind := kind_of_isKept_eq_false hdropped
    have hleaf := (hplain c (h.child hc false).self hkind).2
    rw [walked_eq, hleaf, List.flatMap_nil, ite_self, List.flatMap_singleton, hhtml c hkind]

end Node

/-- A tree without the HTML comments in the argument lists of its calls. -/
def Tree.cleared (t : Tree) : Tree := { t with root := t.root.cleared false }

end SourceDeps.Script

import Mathlib.Data.List.Basic
import SourceDeps.Proofs.Script.Program
import SourceDeps.Proofs.Script.Walk
import SourceDeps.Script.Call

/-! The outline of a tree is the tree without spans and without comments. A comment that is a part
of its parent, or that has something below it, stays, since a question could reach it there. -/

namespace SourceDeps.Script

namespace Node

mutual

/-- A tree without the nodes below its root that satisfy a test, and without what is below these. -/
def without (drop : Node → Bool) : Node → Node
  | mk kind field span text missing faulty children =>
    mk kind field span text missing faulty (withoutAll drop children)

def withoutAll (drop : Node → Bool) : List Node → List Node
  | [] => []
  | n :: ns => if drop n then withoutAll drop ns else without drop n :: withoutAll drop ns

end

def isComment (n : Node) : Bool := n.kind == .comment

def isPlainComment (n : Node) : Bool := n.isComment && n.field.isNone && n.children.isEmpty

/-- A tree without spans and without plain comments. -/
def outline (n : Node) : Node := (n.without isPlainComment).unplaced

theorem withoutAll_eq (drop : Node → Bool) (ns : List Node) :
    withoutAll drop ns = (ns.filter (!drop ·)).map (without drop) := by
  induction ns with
  | nil => rfl
  | cons n ns ih =>
    rw [withoutAll, ih]
    cases hdrop : drop n with
    | true => rw [if_pos rfl, List.filter_cons_of_neg (by simp [hdrop])]
    | false =>
      rw [if_neg Bool.false_ne_true, List.filter_cons_of_pos (by simp [hdrop]), List.map_cons]

theorem without_eq (drop : Node → Bool) (n : Node) : n.without drop =
    mk n.kind n.field n.span n.text n.isMissing n.hasError
      ((n.children.filter (!drop ·)).map (without drop)) := by
  cases n
  rw [without, withoutAll_eq]
  rfl

theorem outline_eq (n : Node) : n.outline =
    mk n.kind n.field default n.text n.isMissing n.hasError
      ((n.children.filter (!isPlainComment ·)).map outline) := by
  have hmap (ns : List Node) :
      ns.map outline = (ns.map (without isPlainComment)).map unplaced := by
    rw [List.map_map]
    rfl
  rw [outline, unplaced_eq, without_eq, hmap]
  rfl

section
variable (n : Node)

@[simp]
theorem kind_outline : n.outline.kind = n.kind := by
  rw [outline_eq]
  rfl

@[simp]
theorem field_outline : n.outline.field = n.field := by
  rw [outline_eq]
  rfl

@[simp]
theorem text_outline : n.outline.text = n.text := by
  rw [outline_eq]
  rfl

theorem children_outline :
    n.outline.children = (n.children.filter (!isPlainComment ·)).map outline := by
  rw [outline_eq]
  rfl

end

theorem isPlainComment_iff {n : Node} :
    n.isPlainComment = true ↔ n.kind = .comment ∧ n.field = none ∧ n.children = [] := by
  simp [isPlainComment, isComment, and_assoc]

theorem outline_unplaced (n : Node) : n.unplaced.outline = n.outline := by
  induction n using induct with
  | step n ih =>
    have hplain : (fun c : Node => !c.isPlainComment) ∘ unplaced = fun c => !c.isPlainComment := by
      funext c
      simp [isPlainComment, isComment, children_unplaced]
    have hchildren : (n.unplaced.children.filter (!isPlainComment ·)).map outline =
        (n.children.filter (!isPlainComment ·)).map outline := by
      rw [children_unplaced, List.filter_map, hplain, List.map_map]
      exact List.map_congr_left fun c hc => ih c (List.mem_of_mem_filter hc)
    rw [outline_eq, hchildren, outline_eq n, unplaced_eq]
    rfl

theorem isPlainComment_eq_isComment {n : Node}
    (h : n.kind = .comment → n.field = none ∧ n.children = []) :
    n.isPlainComment = n.isComment := by
  cases hcomment : n.isComment with
  | false => simp [isPlainComment, hcomment]
  | true =>
    have hkind : n.kind = .comment := by simpa [isComment] using hcomment
    exact isPlainComment_iff.mpr ⟨hkind, h hkind⟩

theorem isPlainComment_without {n : Node} (h : n.isComment = false) (drop : Node → Bool) :
    (n.without drop).isPlainComment = false := by
  have hcomment : (n.without drop).isComment = false := by
    rw [without_eq]
    exact h
  rw [isPlainComment, hcomment, Bool.false_and, Bool.false_and]

/-- Taking the comments out of a tree leaves its outline as it is, if they are all plain. -/
theorem outline_without_isComment {n : Node}
    (h : ∀ m ∈ n.preorder, m.kind = .comment → m.field = none ∧ m.children = []) :
    (n.without isComment).outline = n.outline := by
  induction n using induct with
  | step n ih =>
    -- The children that are left are the same on both sides, since all comments are plain.
    have hkept : n.children.filter (!isPlainComment ·) = n.children.filter (!isComment ·) := by
      refine List.filter_congr fun c hc => ?_
      have hmem : c ∈ n.preorder := mem_preorder_of_child hc (mem_preorder_self c)
      rw [isPlainComment_eq_isComment (h c hmem)]
    have hleft : ((n.children.filter (!isComment ·)).map (without isComment)).filter
        (!isPlainComment ·) = (n.children.filter (!isComment ·)).map (without isComment) := by
      apply List.filter_eq_self.mpr
      intro d hd
      obtain ⟨c, hc, rfl⟩ := List.mem_map.mp hd
      have hcomment : c.isComment = false := by simpa using (List.mem_filter.mp hc).2
      rw [isPlainComment_without hcomment, Bool.not_false]
    have hchildren : ((n.without isComment).children.filter (!isPlainComment ·)).map outline =
        (n.children.filter (!isPlainComment ·)).map outline := by
      rw [without_eq, children, hleft, hkept, List.map_map]
      refine List.map_congr_left fun c hc => ?_
      have hchild := List.mem_of_mem_filter hc
      exact ih c hchild fun m hm => h m (mem_preorder_of_child hchild hm)
    rw [outline_eq, hchildren, outline_eq n, without_eq]
    rfl

theorem any_filter_outline {test : Node → Bool} (houtline : ∀ n : Node, test n.outline = test n)
    (hcomment : ∀ n : Node, n.kind = .comment → test n = false) (ns : List Node) :
    ((ns.filter (!isPlainComment ·)).map outline).any test = ns.any test := by
  rw [List.any_map, List.any_filter]
  refine congrArg ns.any (funext fun c => ?_)
  cases hc : c.isPlainComment with
  | false => simp [houtline]
  | true => simp [hcomment c (isPlainComment_iff.mp hc).1]

section
variable (n : Node)

theorem child?_outline (f : Field) : n.outline.child? f = (n.child? f).map outline := by
  have hfield : (fun c : Node => c.field == some f) ∘ outline = fun c => c.field == some f := by
    funext c
    simp
  have hplain : (fun c : Node => decide ((!c.isPlainComment) = true ∧ (c.field == some f) = true)) =
      fun c => c.field == some f := by
    funext c
    cases hc : c.isPlainComment with
    | false => simp [Bool.beq_eq_decide_eq]
    | true => simp [(isPlainComment_iff.mp hc).2.1]
  rw [child?, child?, children_outline, List.find?_map, hfield, List.find?_filter, hplain]

theorem namedChildren_outline :
    n.outline.namedChildren = (n.namedChildren.filter (!isPlainComment ·)).map outline := by
  have hnamed : (fun c : Node => c.kind.isNamed) ∘ outline = fun c => c.kind.isNamed := by
    funext c
    simp
  rw [namedChildren, namedChildren, children_outline, List.filter_map, hnamed, List.filter_filter,
    List.filter_filter]
  simp only [Bool.and_comm]

theorem callArguments_outline : n.outline.callArguments = n.callArguments.map outline := by
  have hcomment : (fun c : Node => c.kind != .comment) ∘ outline = fun c => c.kind != .comment := by
    funext c
    simp
  -- Arguments are no comments, so that none of them goes.
  have hplain : (fun c : Node => c.kind != .comment && !c.isPlainComment) =
      fun c => c.kind != .comment := by
    funext c
    cases hc : c.isPlainComment with
    | false => simp
    | true => simp [(isPlainComment_iff.mp hc).1]
  rw [callArguments, callArguments, child?_outline]
  cases n.child? .arguments with
  | none => rfl
  | some arguments =>
    simp only [Option.map_some]
    rw [namedChildren_outline, List.filter_map, hcomment, List.filter_filter, hplain]

theorem isCallOf_outline (name : String) : n.outline.isCallOf name = n.isCallOf name := by
  have hcallee : n.outline.calleeName? = n.calleeName? := by
    rw [calleeName?, calleeName?, child?_outline, kind_outline]
    cases n.child? .function with
    | none => rfl
    | some callee => simp
  rw [isCallOf, isCallOf, hcallee]

theorem isDynamicImport_outline : n.outline.isDynamicImport = n.isDynamicImport := by
  rw [isDynamicImport, isDynamicImport, child?_outline, kind_outline]
  cases n.child? .function with
  | none => rfl
  | some callee => simp

theorem stringValue?_outline : n.outline.stringValue? = n.stringValue? := by
  have hsubstitution : n.outline.namedChildren.any (·.kind == .templateSubstitution) =
      n.namedChildren.any (·.kind == .templateSubstitution) := by
    rw [namedChildren_outline]
    exact any_filter_outline (by simp) (by simp +contextual) n.namedChildren
  rw [stringValue?, stringValue?, hsubstitution, kind_outline, text_outline]

theorem firstString?_outline : n.outline.firstString? = n.firstString? := by
  rw [firstString?, firstString?, callArguments_outline, List.head?_map]
  cases n.callArguments.head? with
  | none => rfl
  | some first => exact stringValue?_outline first

theorem arrayStrings_outline : n.outline.arrayStrings = n.arrayStrings := by
  rw [arrayStrings, arrayStrings, namedChildren_outline, List.filterMap_map, List.filterMap_filter]
  refine List.filterMap_congr fun c _ => ?_
  cases hc : c.isPlainComment with
  | false => simp [stringValue?_outline]
  | true => simp [stringValue?, (isPlainComment_iff.mp hc).1]

end

@[simp]
theorem isArray_outline (n : Node) : n.outline.isArray = n.isArray := by
  rw [isArray, isArray, kind_outline]

@[simp]
theorem isFunctionLike_outline (n : Node) : n.outline.isFunctionLike = n.isFunctionLike := by
  rw [isFunctionLike, isFunctionLike, kind_outline]

theorem walked_of_isPlainComment (descend : Node → Bool) {n : Node}
    (h : n.isPlainComment = true) : n.walked descend = [n] := by
  rw [walked_eq, (isPlainComment_iff.mp h).2.2, List.flatMap_nil, ite_self]

theorem walked_outline {descend : Node → Bool} (h : ∀ n : Node, descend n.outline = descend n)
    {n : Node} (hn : n.isPlainComment = false) :
    n.outline.walked descend = ((n.walked descend).filter (!isPlainComment ·)).map outline := by
  -- A plain comment is not taken from itself, only from what is below another node, so the
  -- statement is about other nodes, and the induction goes to the children that stay.
  induction n using induct with
  | step n ih =>
    rw [walked_eq, walked_eq descend n, h, List.filter_cons_of_pos (by simp [hn]), List.map_cons]
    cases descend n with
    | false => rfl
    | true =>
      -- Below a child that goes there is nothing, and of the child itself nothing is left either.
      have hgone : (n.children.filter (!isPlainComment ·)).flatMap
            (fun c => ((c.walked descend).filter (!isPlainComment ·)).map outline) =
          n.children.flatMap
            fun c => ((c.walked descend).filter (!isPlainComment ·)).map outline := by
        apply flatMap_filter_eq
        intro c _ hc
        have hplain : c.isPlainComment = true := by simpa using hc
        rw [walked_of_isPlainComment descend hplain, List.filter_cons_of_neg (by simp [hplain])]
        rfl
      simp only [↓reduceIte, children_outline, List.flatMap_map, List.filter_flatMap,
        List.map_flatMap]
      rw [← hgone]
      congr 1
      refine List.flatMap_congr fun c hc => ?_
      have hkept := List.mem_filter.mp hc
      exact ih c hkept.1 (by simpa using hkept.2)

theorem isPlainComment_outline {n : Node} (h : n.isPlainComment = true) :
    n.outline.isPlainComment = true := by
  have hn := isPlainComment_iff.mp h
  rw [isPlainComment_iff, kind_outline, field_outline, children_outline, hn.2.2]
  exact ⟨hn.1, hn.2.1, rfl⟩

theorem forall_preorder_outline {P : Node → Prop} (houtline : ∀ n : Node, P n.outline ↔ P n)
    (hcomment : ∀ n : Node, n.kind = .comment → P n) (n : Node) :
    (∀ m ∈ n.outline.preorder, P m) ↔ ∀ m ∈ n.preorder, P m := by
  cases hn : n.isPlainComment with
  | true =>
    rw [preorder, preorder, walked_of_isPlainComment _ (isPlainComment_outline hn),
      walked_of_isPlainComment _ hn, List.forall_mem_singleton, List.forall_mem_singleton,
      houtline]
  | false =>
    rw [preorder, walked_outline (fun _ => rfl) hn, List.forall_mem_map]
    constructor
    · intro h m hm
      cases hplain : m.isPlainComment with
      | true => exact hcomment m (isPlainComment_iff.mp hplain).1
      | false => exact (houtline m).mp (h m (List.mem_filter.mpr ⟨hm, by simp [hplain]⟩))
    · intro h m hm
      exact (houtline m).mpr (h m (List.mem_of_mem_filter hm))

/-- What is gathered along a walk only depends on outlines, and neither comments nor the node of a
whole program give anything. -/
structure ReadsOutline {α : Type} (descend : Node → Bool) (give : Node → List α) : Prop where
  descend_outline : ∀ n : Node, descend n.outline = descend n
  give_outline : ∀ n : Node, give n.outline = give n
  descend_program : ∀ n : Node, n.kind = .program → descend n = true
  give_eq_nil : ∀ n : Node, n.kind = .comment ∨ n.kind = .program → give n = []

namespace ReadsOutline

variable {α : Type} {descend : Node → Bool} {give : Node → List α}

theorem flatMap_outline (h : ReadsOutline descend give) (n : Node) :
    (n.outline.walked descend).flatMap give = (n.walked descend).flatMap give := by
  cases hn : n.isPlainComment with
  | true =>
    rw [walked_of_isPlainComment _ (isPlainComment_outline hn), walked_of_isPlainComment _ hn,
      List.flatMap_singleton, List.flatMap_singleton, h.give_outline]
  | false =>
    have hgive : (fun m : Node => give m.outline) = give := funext h.give_outline
    rw [walked_outline h.descend_outline hn, List.flatMap_map, hgive]
    apply flatMap_filter_eq
    intro m _ hm
    have hplain : m.isPlainComment = true := by simpa using hm
    exact h.give_eq_nil m (.inl (isPlainComment_iff.mp hplain).1)

theorem flatMap_eq_of_outline_eq (h : ReadsOutline descend give) {m n : Node}
    (hmn : m.outline = n.outline) :
    (m.walked descend).flatMap give = (n.walked descend).flatMap give := by
  rw [← h.flatMap_outline m, hmn, h.flatMap_outline n]

/-- What is gathered from a program is gathered from its statements, one after the other. -/
theorem flatMap_statements (h : ReadsOutline descend give) {t : Tree} (ht : t.IsProgram) :
    (t.root.walked descend).flatMap give =
      t.statements.flatMap fun s => (s.walked descend).flatMap give := by
  have hstatement (s : Node) :
      (s.unplaced.walked descend).flatMap give = (s.walked descend).flatMap give :=
    h.flatMap_eq_of_outline_eq (outline_unplaced s)
  rw [walked_eq, h.descend_program _ ht, if_pos rfl, List.flatMap_cons,
    h.give_eq_nil _ (.inr ht), List.nil_append, List.flatMap_assoc, Tree.statements,
    List.flatMap_map]
  exact List.flatMap_congr fun s _ => (hstatement s).symm

end ReadsOutline

end Node

/-- A tree without its comments. -/
def Tree.uncommented (t : Tree) : Tree := { t with root := t.root.without Node.isComment }

end SourceDeps.Script

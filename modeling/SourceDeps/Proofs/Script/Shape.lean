import Mathlib.Data.List.TakeWhile
import SourceDeps.Proofs.Script.Call
import SourceDeps.Proofs.Script.Walk
import SourceDeps.Text.Bytes

namespace SourceDeps.Script

open SourceDeps.Text

/-- A text stands in a source at the bytes of a span. -/
def Span.Holds (span : Span) (source text : List Char) : Prop :=
  ∃ left right, source = left ++ (text ++ right) ∧ span.start = byteLength left ∧
    span.stop = byteLength (left ++ text)

namespace Node

/-- Whether a node can name a module: a call, or an import or export statement. -/
def isConstruct (n : Node) : Bool :=
  n.kind == .callExpression || n.kind == .importStatement || n.kind == .exportStatement

/-- Whether neither a node nor anything below it can name a module. -/
def isBare (n : Node) : Bool := n.preorder.all fun m => !m.isConstruct

/-- Whether a node is a literal, a name, a comment, a mark or a keyword. -/
def isAtomic (n : Node) : Bool :=
  n.isLiteral || n.kind == .identifier || n.kind == .import_ || n.kind == .comment ||
    !n.kind.isNamed

/-- The children that stand before a given part of a node. -/
def before (n : Node) (f : Field) : List Node := n.children.takeWhile fun c => c.field != some f

/-- What the grammar says of a node of a script with a given text. -/
structure Shaped (source : List Char) (n : Node) : Prop where
  ordered : n.children.Pairwise fun a b => a.span.stop ≤ b.span.start
  inside : ∀ c ∈ n.children, n.span.start ≤ c.span.start ∧ c.span.stop ≤ n.span.stop
  atomic : n.isAtomic = true → n.isBare = true
  /-- A literal is written with its quotes where its span says. -/
  literal : n.isLiteral = true → ∃ quote ∈ quoteMarks, ∃ body,
    n.text.toList = quote :: (body ++ [quote]) ∧ n.span.Holds source n.text.toList
  /-- Nothing but the callee stands before the arguments of a call that could name a module. -/
  callee : n.kind = .callExpression →
    ∀ c ∈ n.before .arguments, n.child? .function = some c ∨ c.isBare = true
  arguments : n.kind = .callExpression → ∀ args, n.child? .arguments = some args →
    args.kind = .arguments ∨ args.kind = .templateString
  /-- The module of a statement is a string, and nothing before it could name a module. -/
  statement : n.kind = .importStatement ∨ n.kind = .exportStatement →
    ∀ lit, n.child? .source = some lit →
      lit.kind = .string ∧ ∀ c ∈ n.before .source, c.isBare = true

theorem isBare_eq (n : Node) : n.isBare = (!n.isConstruct && n.children.all isBare) := by
  rw [isBare, preorder_eq, List.all_cons, List.all_flatMap]
  rfl

theorem isBare_of_mem_preorder {n m : Node} (h : n.isBare = true) (hm : m ∈ n.preorder) :
    m.isConstruct = false := by
  simpa using List.all_eq_true.mp h m hm

theorem children_eq_before {n c : Node} {f : Field} (h : n.child? f = some c) :
    ∃ after, n.children = n.before f ++ c :: after := by
  obtain ⟨hf, left, right, he, hleft⟩ := List.find?_eq_some_iff_append.mp h
  refine ⟨right, ?_⟩
  have hbefore : n.before f = left := by
    rw [before, he, List.takeWhile_append_of_pos]
    · rw [List.takeWhile_cons_of_neg, List.append_nil]
      simpa using hf
    · intro a ha
      simpa using hleft a ha
  rw [hbefore, he]

theorem arguments_children_eq {args : Node} {lit : Node}
    (h : (args.namedChildren.filter fun c => c.kind != .comment).head? = some lit) :
    ∃ left right, args.children = left ++ lit :: right ∧ ∀ c ∈ left, c.isAtomic = true := by
  rw [namedChildren, List.filter_filter, List.head?_filter] at h
  obtain ⟨-, left, right, he, hleft⟩ := List.find?_eq_some_iff_append.mp h
  refine ⟨left, right, he, ?_⟩
  intro c hc
  -- A child that was skipped is not named or a comment.
  have hskip := hleft c hc
  cases hn : c.kind.isNamed with
  | false => simp [isAtomic, hn]
  | true =>
    have hcomment : c.kind = .comment := by simpa [hn] using hskip
    simp [isAtomic, hcomment]

namespace Shaped

variable {source : List Char} {n : Node}

theorem of_plain (hconstruct : n.isConstruct = false) (hatomic : n.isAtomic = false)
    (ordered : n.children.Pairwise fun a b => a.span.stop ≤ b.span.start)
    (inside : ∀ c ∈ n.children, n.span.start ≤ c.span.start ∧ c.span.stop ≤ n.span.stop) :
    n.Shaped source := by
  have hcall : n.kind ≠ .callExpression := fun h => by simp [isConstruct, h] at hconstruct
  have hlit : n.isLiteral = false := by
    rw [isAtomic] at hatomic
    simp_all
  refine ⟨ordered, inside, by simp [hatomic], by simp [hlit], fun h => absurd h hcall,
    fun h => absurd h hcall, fun h => ?_⟩
  rcases h with h | h <;> simp [isConstruct, h] at hconstruct

theorem of_token (hchildren : n.children = []) (hconstruct : n.isConstruct = false)
    (hlit : n.isLiteral = false) : n.Shaped source := by
  have hcall : n.kind ≠ .callExpression := fun h => by simp [isConstruct, h] at hconstruct
  have hbare : n.isBare = true := by rw [isBare_eq, hchildren, hconstruct]; rfl
  refine ⟨by simp [hchildren], by simp [hchildren], fun _ => hbare, by simp [hlit],
    fun h => absurd h hcall, fun h => absurd h hcall, fun h => ?_⟩
  rcases h with h | h <;> simp [isConstruct, h] at hconstruct

theorem of_call {callee args : Node} (hkind : n.kind = .callExpression)
    (hchildren : n.children = [callee, args]) (hcallee : n.child? .function = some callee)
    (hargs : n.child? .arguments = some args) (hargsKind : args.kind = .arguments)
    (ordered : n.children.Pairwise fun a b => a.span.stop ≤ b.span.start)
    (inside : ∀ c ∈ n.children, n.span.start ≤ c.span.start ∧ c.span.stop ≤ n.span.stop) :
    n.Shaped source := by
  have hlit : n.isLiteral = false := by simp [isLiteral, hkind]
  have hatomic : n.isAtomic = false := by simp [isAtomic, hlit, hkind, Kind.isNamed]
  refine ⟨ordered, inside, by simp [hatomic], by simp [hlit], fun _ c hc => .inl ?_,
    fun _ a ha => .inl ?_, by simp [hkind]⟩
  · have hmem : c ∈ n.children := List.takeWhile_subset _ hc
    unfold before at hc
    have hfield := List.mem_takeWhile_imp hc
    rw [hchildren] at hmem
    rcases List.mem_cons.mp hmem with rfl | hmem
    · exact hcallee
    · obtain rfl := List.mem_singleton.mp hmem
      have harguments := List.find?_some hargs
      simp_all
  · obtain rfl : args = a := Option.some.inj (hargs.symm.trans ha)
    exact hargsKind

/-- The value of a literal is what stands between its quotes in the source. -/
theorem exists_stringValue? (h : n.Shaped source) (hlit : n.isLiteral = true) :
    ∃ quote ∈ quoteMarks, ∃ value, n.stringValue? = some value ∧
      n.span.Holds source (quote :: (value.toList ++ [quote])) := by
  obtain ⟨quote, hq, body, htext, hholds⟩ := h.literal hlit
  refine ⟨quote, hq, String.ofList body, ?_, ?_⟩
  · rw [stringValue?_eq, if_pos hlit, unquoted_eq hq htext]
  · rw [String.toList_ofList, ← htext]
    exact hholds

theorem start_lt_stop (h : n.Shaped source) (hlit : n.isLiteral = true) :
    n.span.start < n.span.stop := by
  obtain ⟨quote, -, body, htext, left, right, -, hstart, hstop⟩ := h.literal hlit
  have hpos := Char.utf8Size_pos quote
  rw [hstart, hstop, byteLength_append, htext, byteLength]
  omega

end Shaped

/-- A node and all nodes below it have the shape that the grammar gives to them. -/
def AllShaped (source : List Char) (n : Node) : Prop := ∀ m ∈ n.preorder, m.Shaped source

namespace AllShaped

variable {source : List Char} {n c : Node}

theorem shaped (h : n.AllShaped source) : n.Shaped source := h n (mem_preorder_self n)

theorem of_children (hn : n.Shaped source) (h : ∀ c ∈ n.children, c.AllShaped source) :
    n.AllShaped source := by
  intro m hm
  rw [preorder_eq] at hm
  rcases List.mem_cons.mp hm with rfl | hbelow
  · exact hn
  · obtain ⟨c, hc, hmc⟩ := List.mem_flatMap.mp hbelow
    exact h c hc m hmc

theorem child (h : n.AllShaped source) (hc : c ∈ n.children) : c.AllShaped source :=
  fun m hm => h m (mem_preorder_of_child hc hm)

end AllShaped

end Node

/-- Every node of a tree has the shape that the grammar gives to it. -/
def Tree.Shaped (t : Tree) : Prop := t.root.AllShaped t.source.toList

end SourceDeps.Script

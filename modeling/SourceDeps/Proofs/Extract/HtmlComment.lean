import SourceDeps.Proofs.Extract.Mixture
import SourceDeps.Proofs.Extract.Outline
import SourceDeps.Proofs.Script.HtmlComment

namespace SourceDeps.Extract

open SourceDeps.Script
open SourceDeps.Script.Node (ClearsTo Simulates)

/-- No HTML comment stands in front of what a call loads. -/
def HidesNothing (k : Node) : Prop :=
  k.isCallOf "require" = true ∨ k.isDynamicImport = true → ¬k.BeginsWithHtml

theorem beginsWithHtml_of_not_hidesNothing {k : Node} (h : ¬HidesNothing k) :
    k.BeginsWithHtml := by
  by_contra hnot
  exact h fun _ => hnot

/-- What is asked of the nodes of a tree for HTML comments not to matter. -/
def IsOpen (k : Node) : Prop := k.IsPlainHtml ∧ HidesNothing k

theorem IsOpen.isPlainHtml (k : Node) (h : IsOpen k) : k.IsPlainHtml := h.1

section
variable {P : Node → Prop} {m n : Node} (hplain : ∀ k, P k → k.IsPlainHtml)
include hplain

theorem required?_eq_of_hidesNothing (h : ClearsTo P m n) (hopen : HidesNothing m) :
    CommonJs.required? n = CommonJs.required? m := by
  rw [CommonJs.required?, CommonJs.required?, h.isCallOf_eq hplain]
  cases hcall : m.isCallOf "require" with
  | false => rfl
  | true => rw [h.firstString?_eq hplain (Node.isCallOf_iff.mp hcall).1 (hopen (.inl hcall))]

theorem statementSource?_eq (h : ClearsTo P m n) :
    Es6.statementSource? n = Es6.statementSource? m := by
  have hsource : (n.child? .source).bind Node.stringValue? =
      (m.child? .source).bind Node.stringValue? := by
    rw [h.child?_eq hplain]
    cases hfound : m.child? .source with
    | none => rfl
    | some c => exact (h.child (List.mem_of_find?_eq_some hfound) _).stringValue?_eq
  rw [Es6.statementSource?, Es6.statementSource?, hsource, h.sameHead.kind]

theorem loaded?_eq_of_hidesNothing (options : Es6Options) (h : ClearsTo P m n)
    (hopen : HidesNothing m) : Es6.loaded? options n = Es6.loaded? options m := by
  rw [Es6.loaded?, Es6.loaded?, h.isCallOf_eq hplain, h.isDynamicImport_eq hplain]
  split
  · next hloads =>
    have hcalls : m.isCallOf "require" = true ∨ m.isDynamicImport = true := by
      rw [Bool.or_eq_true, Bool.and_eq_true, Bool.and_eq_true] at hloads
      exact hloads.symm.imp (·.2) (·.1)
    have hkind : m.kind = .callExpression := by
      rcases hcalls with hcall | hcall
      · exact (Node.isCallOf_iff.mp hcall).1
      · exact (Node.isDynamicImport_iff.mp hcall).1
    exact h.firstString?_eq hplain hkind (hopen hcalls)
  · rfl

/-- A call whose first argument is an HTML comment gives nothing, and else the comments in it do not
matter. So without them no name is lost. -/
theorem required?_sublist (h : ClearsTo P m n) :
    (CommonJs.required? m).toList.Sublist (CommonJs.required? n).toList := by
  by_cases hopen : HidesNothing m
  · rw [required?_eq_of_hidesNothing hplain h hopen]
  · have hbegins := beginsWithHtml_of_not_hidesNothing hopen
    rw [CommonJs.required?, Node.firstString?_of_beginsWithHtml hbegins, ite_self]
    exact List.nil_sublist _

theorem reference?_sublist (options : Es6Options) (h : ClearsTo P m n) :
    (Es6.reference? options m).toList.Sublist (Es6.reference? options n).toList := by
  rw [Es6.reference?, Es6.reference?, statementSource?_eq hplain h]
  by_cases hopen : HidesNothing m
  · rw [loaded?_eq_of_hidesNothing hplain options h hopen]
  · have hbegins := beginsWithHtml_of_not_hidesNothing hopen
    rw [Es6.loaded?, Node.firstString?_of_beginsWithHtml hbegins, ite_self, Option.or_none]
    cases Es6.statementSource? m with
    | none => exact List.nil_sublist _
    | some name => exact List.Sublist.refl _

end

theorem ne_call_of_html {k : Node} (h : k.kind = .htmlComment) : k.kind ≠ .callExpression := by
  simp [h]

theorem required?_html {k : Node} (h : k.kind = .htmlComment) :
    (CommonJs.required? k).toList = [] := by
  rw [CommonJs.required?, Node.isCallOf_eq_false (ne_call_of_html h)]
  rfl

theorem reference?_html (options : Es6Options) {k : Node} (h : k.kind = .htmlComment) :
    (Es6.reference? options k).toList = [] := by
  rw [Es6.reference?, Es6.loaded?_eq_none options (ne_call_of_html h), Es6.statementSource?, h]
  rfl

theorem simulates_sublist {give : Node → List String}
    (hgive : ∀ m n, ClearsTo Node.IsPlainHtml m n → (give m).Sublist (give n))
    (hhtml : ∀ k : Node, k.kind = .htmlComment → give k = []) :
    Simulates (ClearsTo Node.IsPlainHtml) List.Sublist (fun _ => true) give := by
  apply Node.simulates_clearsTo (fun _ h => h) (List.Sublist.refl [])
  · exact List.Sublist.append
  · exact fun _ _ _ => rfl
  · exact hgive
  · exact hhtml

theorem simulates_eq {α : Type} {descend : Node → Bool} {give : Node → List α}
    (hdescend : ∀ m n, ClearsTo IsOpen m n → descend n = descend m)
    (hgive : ∀ m n, ClearsTo IsOpen m n → give n = give m)
    (hhtml : ∀ k : Node, k.kind = .htmlComment → give k = []) :
    Simulates (ClearsTo IsOpen) Eq descend give := by
  apply Node.simulates_clearsTo IsOpen.isPlainHtml rfl
  · rintro as bs cs ds rfl rfl
    rfl
  · exact hdescend
  · exact fun m n h => (hgive m n h).symm
  · exact hhtml

theorem simulates_required : Simulates (ClearsTo IsOpen) Eq (fun _ => true)
    fun n => (CommonJs.required? n).toList := by
  apply simulates_eq
  · exact fun _ _ _ => rfl
  · intro m n h
    rw [required?_eq_of_hidesNothing IsOpen.isPlainHtml h h.self.2]
  · exact fun _ => required?_html

theorem simulates_reference (options : Es6Options) : Simulates (ClearsTo IsOpen) Eq (fun _ => true)
    fun n => (Es6.reference? options n).toList := by
  apply simulates_eq
  · exact fun _ _ _ => rfl
  · intro m n h
    rw [Es6.reference?, statementSource?_eq IsOpen.isPlainHtml h,
      loaded?_eq_of_hidesNothing IsOpen.isPlainHtml options h h.self.2, Es6.reference?]
  · exact fun _ => reference?_html options

namespace Amd

variable {m n : Node}

theorem requiredBy_cleared (arrays : Bool) (h : ClearsTo IsOpen m n) :
    requiredBy arrays n = requiredBy arrays m := by
  rw [requiredBy, requiredBy, h.isCallOf_eq IsOpen.isPlainHtml]
  cases hcall : m.isCallOf "require" with
  | false => rfl
  | true =>
    rcases h.callArguments_cases IsOpen.isPlainHtml (Node.isCallOf_iff.mp hcall).1
        (h.self.2 (.inl hcall)) with
      ⟨hm, hn⟩ | ⟨first, rest, first', rest', hm, hn, hfirst, -⟩
    · rw [hm, hn]
    · simp only [hm, hn, hfirst.arrayStrings_eq, hfirst.stringValue?_eq,
        hfirst.sameHead.isArray_eq]

theorem simulates_requiredBy (arrays : Bool) :
    Simulates (ClearsTo IsOpen) Eq (fun _ => true) (requiredBy arrays) := by
  apply simulates_eq
  · exact fun _ _ _ => rfl
  · exact fun _ _ h => requiredBy_cleared arrays h
  · intro k hk
    rw [requiredBy, Node.isCallOf_eq_false (ne_call_of_html hk)]
    rfl

theorem innerRequires_cleared (arrays : Bool) (h : ClearsTo IsOpen m n) :
    innerRequires arrays n = innerRequires arrays m :=
  ((simulates_requiredBy arrays).flatMap_walked h).symm

theorem find?_filter_isHtmlComment {test : Node → Bool}
    (htest : ∀ k : Node, k.kind = .htmlComment → test k = false) (ns : List Node) :
    (ns.filter (!Node.isHtmlComment ·)).find? test = ns.find? test := by
  rw [List.find?_filter]
  apply List.find?_congr
  intro k _
  rw [Bool.decide_and, Bool.decide_eq_true, Bool.decide_eq_true, Node.not_isHtmlComment_and htest]

theorem isArray_of_html {k : Node} (h : k.kind = .htmlComment) : k.isArray = false := by
  rw [Node.isArray, h]
  rfl

theorem isFunctionLike_of_html {k : Node} (h : k.kind = .htmlComment) :
    k.isFunctionLike = false := by
  rw [Node.isFunctionLike, h]
  rfl

/-- In a call of `define` no argument depends on its position, but for a name that does not
count. -/
theorem ofDefine_cleared (options : AmdOptions) (h : ClearsTo IsOpen m n)
    (hcall : m.isCallOf "define" = true) : ofDefine options n = ofDefine options m := by
  have hargs := h.callArguments_rel IsOpen.isPlainHtml (Node.isCallOf_iff.mp hcall).1
  have hlist := rel_find? hargs fun _ _ hab => hab.sameHead.isArray_eq
  have hfactory := rel_find? hargs fun _ _ hab => hab.sameHead.isFunctionLike_eq
  rw [find?_filter_isHtmlComment fun _ => isArray_of_html] at hlist
  rw [find?_filter_isHtmlComment fun _ => isFunctionLike_of_html] at hfactory
  simp only [ofDefine, find?_isArray_unnamed, find?_isFunctionLike_unnamed]
  generalize m.callArguments.find? Node.isArray = list at hlist
  generalize n.callArguments.find? Node.isArray = list' at hlist
  generalize m.callArguments.find? Node.isFunctionLike = factory at hfactory
  generalize n.callArguments.find? Node.isFunctionLike = factory' at hfactory
  cases hlist with
  | none =>
    cases hfactory with
    | none => rfl
    | some hf => exact innerRequires_cleared _ hf
  | some hl =>
    cases hfactory with
    | none => exact hl.arrayStrings_eq
    | some hf => simp only [hl.arrayStrings_eq, innerRequires_cleared true hf]

/-- The functions among arguments require the same, and HTML comments are none of them. -/
theorem flatMap_innerRequires_cleared {rest rest' : List Node}
    (h : List.Forall₂ (ClearsTo IsOpen) (rest.filter (!Node.isHtmlComment ·)) rest') :
    (rest'.filter Node.isFunctionLike).flatMap (innerRequires true) =
      (rest.filter Node.isFunctionLike).flatMap (innerRequires true) := by
  have hfunctions : (rest.filter (!Node.isHtmlComment ·)).filter Node.isFunctionLike =
      rest.filter Node.isFunctionLike := by
    rw [List.filter_filter]
    refine List.filter_congr fun k _ => ?_
    rw [Bool.and_comm, Node.not_isHtmlComment_and fun _ => isFunctionLike_of_html]
  have hpairs : List.Forall₂ (ClearsTo IsOpen)
      ((rest.filter (!Node.isHtmlComment ·)).filter Node.isFunctionLike)
      (rest'.filter Node.isFunctionLike) := by
    refine List.rel_filter (fun a b hab => ?_) h
    exact Bool.eq_iff_iff.mp (hab.sameHead.isFunctionLike_eq)
  rw [← hfunctions]
  apply ((simulates_requiredBy true).flatMap_rel hpairs _).symm
  exact fun a _ b hab => (innerRequires_cleared true hab).symm

/-- The arguments of a call with a list as the first, without and with HTML comments. -/
def AlikeDrivers (a b : Node × List Node) : Prop :=
  ClearsTo IsOpen a.1 b.1 ∧
    List.Forall₂ (ClearsTo IsOpen) (a.2.filter (!Node.isHtmlComment ·)) b.2

theorem driverArguments?_rel (h : ClearsTo IsOpen m n) :
    Option.Rel AlikeDrivers (driverArguments? m) (driverArguments? n) := by
  rw [driverArguments?, driverArguments?, h.isCallOf_eq IsOpen.isPlainHtml]
  cases hcall : m.isCallOf "require" with
  | false => exact .none
  | true =>
    rcases h.callArguments_cases IsOpen.isPlainHtml (Node.isCallOf_iff.mp hcall).1
        (h.self.2 (.inl hcall)) with
      ⟨hm, hn⟩ | ⟨first, rest, first', rest', hm, hn, hfirst, hrest⟩
    · rw [hm, hn]
      exact .none
    · simp only [hm, hn, hfirst.sameHead.isArray_eq]
      cases first'.isArray with
      | false => exact .none
      | true => exact .some ⟨hfirst, hrest⟩

theorem isSome_driverArguments?_cleared (h : ClearsTo IsOpen m n) :
    (driverArguments? n).isSome = (driverArguments? m).isSome := by
  have hdriver := driverArguments?_rel h
  generalize driverArguments? m = arguments at hdriver
  generalize driverArguments? n = arguments' at hdriver
  cases hdriver <;> rfl

theorem isHandled_cleared (h : ClearsTo IsOpen m n) : isHandled n = isHandled m := by
  rw [isHandled, isHandled, h.isCallOf_eq IsOpen.isPlainHtml, isSome_driverArguments?_cleared h]

theorem ofDriver_cleared (options : AmdOptions) {a b : Node × List Node} (h : AlikeDrivers a b) :
    ofDriver options b.1 b.2 = ofDriver options a.1 a.2 := by
  rw [ofDriver, ofDriver, h.1.arrayStrings_eq, flatMap_innerRequires_cleared h.2]

theorem contribution_cleared (options : AmdOptions) (h : ClearsTo IsOpen m n) :
    contribution options n = contribution options m := by
  have hdriver := driverArguments?_rel h
  rw [contribution, contribution, h.isCallOf_eq IsOpen.isPlainHtml]
  generalize driverArguments? m = arguments at hdriver
  generalize driverArguments? n = arguments' at hdriver
  cases hdefine : m.isCallOf "define" with
  | true => exact ofDefine_cleared options h hdefine
  | false =>
    cases hdriver with
    | none => rfl
    | some hab => exact ofDriver_cleared options hab

theorem simulates_contribution (options : AmdOptions) :
    Simulates (ClearsTo IsOpen) Eq (fun n => !isHandled n) (contribution options) := by
  apply simulates_eq
  · intro m n h
    rw [isHandled_cleared h]
  · exact fun _ _ h => contribution_cleared options h
  · exact fun k hk => contribution_eq_nil options (isHandled_eq_false (ne_call_of_html hk))

end Amd

section
variable {m n : Node}

theorem isDriver_eq (n : Node) : Detect.isDriver n = (Amd.driverArguments? n).isSome := by
  rw [Detect.isDriver, Detect.takesArray, Amd.driverArguments?]
  cases n.isCallOf "require" with
  | false => rfl
  | true =>
    cases n.callArguments with
    | nil => rfl
    | cons first rest => cases h : first.isArray <;> simp [h]

theorem isDriver_cleared (h : ClearsTo IsOpen m n) : Detect.isDriver n = Detect.isDriver m := by
  rw [isDriver_eq, isDriver_eq, Amd.isSome_driverArguments?_cleared h]

theorem hasDriverStatement_cleared (h : ClearsTo IsOpen m n) :
    Detect.hasDriverStatement n = Detect.hasDriverStatement m := by
  have hstatement (c d : Node) (hcd : ClearsTo IsOpen c d) :
      Detect.isDriverStatement d = Detect.isDriverStatement c := by
    rw [Detect.isDriverStatement, Detect.isDriverStatement, hcd.sameHead.kind,
      hcd.any_children fun _ _ => isDriver_cleared]
    intro k hk
    rw [Detect.isDriver, Node.isCallOf_eq_false (ne_call_of_html hk), Bool.false_and]
  have hany : n.children.any Detect.isDriverStatement =
      m.children.any Detect.isDriverStatement := by
    apply h.any_children hstatement
    intro k hk
    rw [Detect.isDriverStatement, hk]
    rfl
  rw [Detect.hasDriverStatement, Detect.hasDriverStatement, h.sameHead.kind]
  exact congrArg _ hany

theorem isExports_cleared (h : ClearsTo IsOpen m n) :
    Detect.isExports n = Detect.isExports m := by
  have hobject := h.child?_rel IsOpen.isPlainHtml .object
  have hproperty := h.child?_rel IsOpen.isPlainHtml .property
  rw [Detect.isExports, Detect.isExports]
  generalize m.child? .object = object at hobject
  generalize n.child? .object = object' at hobject
  generalize m.child? .property = property at hproperty
  generalize n.child? .property = property' at hproperty
  cases hobject with
  | none => rfl
  | some ho =>
    cases hproperty with
    | none => simp only [ho.kind, ho.text]
    | some hp => simp only [ho.kind, ho.text, hp.text]

theorem signalsOf_cleared (h : ClearsTo IsOpen m n) :
    Detect.signalsOf n = Detect.signalsOf m := by
  have hrequire : (n.isCallOf "require" && !Detect.takesArray n) =
      (m.isCallOf "require" && !Detect.takesArray m) := by
    have hdriver := isDriver_cleared h
    rw [Detect.isDriver, Detect.isDriver, h.isCallOf_eq IsOpen.isPlainHtml] at hdriver
    rw [h.isCallOf_eq IsOpen.isPlainHtml]
    cases hcall : m.isCallOf "require" with
    | false => rfl
    | true =>
      rw [hcall, Bool.true_and, Bool.true_and] at hdriver
      rw [hdriver]
  rw [Detect.signalsOf, Detect.signalsOf, hrequire, hasDriverStatement_cleared h,
    isExports_cleared h, h.isCallOf_eq IsOpen.isPlainHtml, h.sameHead.kind]

end

/-- The constructs that a node is, if it is any. -/
def constructs (n : Node) : List Detect.Signals := [Detect.signalsOf n].filter (· ≠ {})

theorem signals_eq_joinAll (t : Script.Tree) :
    Detect.signals t = Detect.Signals.joinAll (t.root.preorder.flatMap constructs) := by
  refine eq_of_forall_ge_iff fun s => ?_
  rw [Detect.signals_le_iff, Detect.Signals.joinAll_le_iff, List.forall_mem_flatMap]
  refine forall₂_congr fun n _ => ?_
  rw [constructs]
  by_cases hempty : Detect.signalsOf n = {}
  · simp [hempty, Detect.Signals.empty_le]
  · simp [hempty]

theorem simulates_constructs : Simulates (ClearsTo IsOpen) Eq (fun _ => true) constructs := by
  apply simulates_eq
  · exact fun _ _ _ => rfl
  · intro m n h
    rw [constructs, signalsOf_cleared h, constructs]
  · intro k hk
    have hcall := Node.isCallOf_eq_false (ne_call_of_html hk)
    have hempty : Detect.signalsOf k = {} := by
      rw [Detect.signalsOf, hcall, hcall, Detect.hasDriverStatement, hk]
      rfl
    rw [constructs, hempty]
    rfl

/-- HTML comments in argument lists only matter in front of what a call loads. Without them, CommonJS
and ES6 report all that they report with them, in the same order and perhaps more. And if no call of
`require` or `import` begins with one, a script is found to be of the same dialect without them, and
each extractor reports the same. -/
theorem extract_cleared (t : Script.Tree) (hplain : ∀ m ∈ t.root.preorder, m.IsPlainHtml) :
    (∃ fewer all, CommonJs.extract (.tree (.script t)) = .ok ⟨fewer, none⟩ ∧
      CommonJs.extract (.tree (.script t.cleared)) = .ok ⟨all, none⟩ ∧ fewer.Sublist all) ∧
    (∀ options, ∃ fewer all, Es6.extract options (.tree (.script t)) = .ok ⟨fewer, none⟩ ∧
      Es6.extract options (.tree (.script t.cleared)) = .ok ⟨all, none⟩ ∧ fewer.Sublist all) ∧
    ((∀ m ∈ t.root.preorder, HidesNothing m) →
      Detect.ofScript t.cleared = Detect.ofScript t ∧
      CommonJs.extract (.tree (.script t.cleared)) = CommonJs.extract (.tree (.script t)) ∧
      (∀ options, Amd.extract options (.tree (.script t.cleared)) =
        Amd.extract options (.tree (.script t))) ∧
      ∀ options, Es6.extract options (.tree (.script t.cleared)) =
        Es6.extract options (.tree (.script t))) := by
  refine ⟨⟨_, _, rfl, rfl, ?_⟩, fun options => ⟨_, _, rfl, rfl, ?_⟩, fun hopen => ?_⟩
  · have hsimulates := simulates_sublist (fun _ _ => required?_sublist fun _ h => h)
      fun _ => required?_html
    rw [CommonJs.dependencies_eq, CommonJs.dependencies_eq]
    exact hsimulates.flatMap_walked ⟨hplain, false, rfl⟩
  · have hsimulates := simulates_sublist (fun _ _ => reference?_sublist (fun _ h => h) options)
      fun _ => reference?_html options
    rw [Es6.dependencies_eq, Es6.dependencies_eq]
    exact hsimulates.flatMap_walked ⟨hplain, false, rfl⟩
  · have hclears : ClearsTo IsOpen t.root t.cleared.root :=
      ⟨fun m hm => ⟨hplain m hm, hopen m hm⟩, false, rfl⟩
    refine ⟨?_, ?_, fun options => ?_, fun options => ?_⟩
    · have hsignals : Detect.signals t.cleared = Detect.signals t := by
        rw [signals_eq_joinAll, signals_eq_joinAll]
        exact congrArg _ (simulates_constructs.flatMap_walked hclears).symm
      rw [Detect.ofScript, hsignals, Detect.ofScript]
    · have hdeps : CommonJs.dependencies t.cleared = CommonJs.dependencies t := by
        rw [CommonJs.dependencies_eq, CommonJs.dependencies_eq]
        exact (simulates_required.flatMap_walked hclears).symm
      rw [CommonJs.extract, CommonJs.extract, fromScript_tree, fromScript_tree, hdeps]
    · have hmentioned : Amd.mentioned options t.cleared = Amd.mentioned options t :=
        ((Amd.simulates_contribution options).flatMap_walked hclears).symm
      rw [Amd.extract, Amd.extract, fromScript_tree, fromScript_tree, Amd.dependencies, hmentioned,
        Amd.dependencies]
    · have hdeps : Es6.dependencies options t.cleared = Es6.dependencies options t := by
        rw [Es6.dependencies_eq, Es6.dependencies_eq]
        exact ((simulates_reference options).flatMap_walked hclears).symm
      rw [Es6.extract, Es6.extract, fromScript_tree, fromScript_tree, hdeps]

/-- The program of a text `require(...);`, with the nodes between the parentheses and the byte where
these end. -/
def requireOf (inside : List Node) (stop : Nat) (source : String) : Script.Tree where
  source := source
  root := .mk .program none ⟨0, stop + 2⟩ "" false false [
    .mk .expressionStatement none ⟨0, stop + 2⟩ "" false false [
      .mk .callExpression none ⟨0, stop + 1⟩ "" false false [
        .mk .identifier (some .function) ⟨0, 7⟩ "require" false false [],
        .mk .arguments (some .arguments) ⟨7, stop + 1⟩ "" false false
          (.mk (.mark "(") none ⟨7, 8⟩ "(" false false [] :: inside ++
            [.mk (.mark ")") none ⟨stop, stop + 1⟩ ")" false false []])],
      .mk (.mark ";") none ⟨stop + 1, stop + 2⟩ ";" false false []]]

/-- The comment `<!-- c` at a byte of a text. -/
def htmlCommentAt (byte : Nat) : Node :=
  .mk .htmlComment none ⟨byte, byte + 6⟩ "<!-- c" false false []

def commentBehind : Script.Tree :=
  requireOf [literalAt 8 "a", .mk (.mark ",") none ⟨11, 12⟩ "," false false [], htmlCommentAt 12,
    .mk .identifier none ⟨19, 20⟩ "f" false false []] 20 "require('a',<!-- c\nf);"

def commentInFront : Script.Tree :=
  requireOf [htmlCommentAt 8, literalAt 15 "a"] 18 "require(<!-- c\n'a');"

theorem commentBehind_cleared :
    ((∀ m ∈ commentBehind.root.preorder, m.IsPlainHtml) ∧
      ∀ m ∈ commentBehind.root.preorder, HidesNothing m) ∧
    commentBehind.cleared.root.preorder.length + 1 = commentBehind.root.preorder.length ∧
    Detect.ofScript commentBehind.cleared = .commonJs ∧
    CommonJs.extract (.tree (.script commentBehind.cleared)) = .ok ⟨["a"], none⟩ := by
  have hplain : ∀ m ∈ commentBehind.root.preorder, m.IsPlainHtml := by
    have hall : ∀ m ∈ commentBehind.root.preorder, m.kind = .htmlComment →
        m.field = none ∧ m.children = [] := by
      decide +kernel
    exact hall
  have hopen : ∀ m ∈ commentBehind.root.preorder, HidesNothing m := by
    have hhead : ∀ m ∈ commentBehind.root.preorder,
        m.callArguments.head?.any Node.isHtmlComment = false := by
      decide +kernel
    rintro m hm - ⟨first, hfirst, hkind⟩
    have hnone := hhead m hm
    rw [hfirst, Option.any_some, Node.isHtmlComment, hkind] at hnone
    cases hnone
  have hdialect : Detect.ofScript commentBehind = .commonJs := by
    decide +kernel
  have hdeps : CommonJs.dependencies commentBehind = ["a"] := by
    decide +kernel
  obtain ⟨hsame, hcommonJs, -⟩ := (extract_cleared commentBehind hplain).2.2 hopen
  refine ⟨⟨hplain, hopen⟩, by decide +kernel, hsame.trans hdialect, ?_⟩
  rw [hcommonJs, CommonJs.extract, fromScript_tree, hdeps]

/-- A comment in front of the literal hides the module, which is reported without the comment. -/
theorem commentInFront_hides : (∀ m ∈ commentInFront.root.preorder, m.IsPlainHtml) ∧
    CommonJs.extract (.tree (.script commentInFront)) = .ok ⟨[], none⟩ ∧
    CommonJs.extract (.tree (.script commentInFront.cleared)) = .ok ⟨["a"], none⟩ := by
  have hplain : ∀ m ∈ commentInFront.root.preorder, m.kind = .htmlComment →
      m.field = none ∧ m.children = [] := by
    decide +kernel
  have hhidden : CommonJs.dependencies commentInFront = [] := by
    decide +kernel
  have hfound : CommonJs.dependencies commentInFront.cleared = ["a"] := by
    decide +kernel
  refine ⟨hplain, ?_, ?_⟩
  · rw [CommonJs.extract, fromScript_tree, hhidden]
  · rw [CommonJs.extract, fromScript_tree, hfound]

end SourceDeps.Extract

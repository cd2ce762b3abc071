import Mathlib.Data.List.Basic
import SourceDeps.Extract.Es6
import SourceDeps.Proofs.Script.Place
import SourceDeps.Proofs.Script.Shape

/-! Which nodes refer to a module, and by which literal, is said of a single node. The walk meets
the referring node and not the literal; that the order is the same rests on `pairwise_literals`. -/

namespace SourceDeps.Extract

open SourceDeps.Script

/-- A call whose first argument is a given literal. -/
def TakesLiteral (n lit : Node) : Prop :=
  n.kind = .callExpression ∧ n.callArguments.head? = some lit ∧ lit.isLiteral = true

/-- A call `require('x')`, with its literal. -/
def IsRequire (n lit : Node) : Prop :=
  TakesLiteral n lit ∧ ∃ callee, n.child? .function = some callee ∧ callee.kind = .identifier ∧
    callee.text = "require"

/-- A call `import('x')`, with its literal. -/
def IsImportCall (n lit : Node) : Prop :=
  TakesLiteral n lit ∧ ∃ callee, n.child? .function = some callee ∧ callee.kind = .import_

/-- An import or export statement with a module, and the string that names it. -/
def IsModuleStatement (n lit : Node) : Prop :=
  (n.kind = .importStatement ∨ n.kind = .exportStatement) ∧ n.child? .source = some lit ∧
    lit.kind = .string

/-- The references of an ES6 script under given options. -/
def IsEs6Reference (options : Es6Options) (n lit : Node) : Prop :=
  IsModuleStatement n lit ∨ (options.skipAsyncImports = false ∧ IsImportCall n lit) ∨
    (options.mixedImports = true ∧ IsRequire n lit)

/-- A reference found in a tree: the place of the node that refers, the literal by which it does,
and the name of the module. -/
structure Reference where
  place : Place
  literal : Node
  name : String

/-- The references found are those of the nodes of a tree that refer to modules, at any depth and
each once, in the order of their literals in the text. The name of each is the text of its literal
between the quotes. -/
structure FindsExactly (t : Script.Tree) (Refers : Node → Node → Prop) (found : List Reference) :
    Prop where
  mem_iff : ∀ p lit, (∃ r ∈ found, r.place = p ∧ r.literal = lit) ↔
    ∃ n, t.root.nodeAt? p = some n ∧ Refers n lit
  increasing : found.Pairwise fun a b => a.literal.span.start < b.literal.span.start
  quoted : ∀ r ∈ found, ∃ quote ∈ quoteMarks,
    r.literal.span.Holds t.source.toList (quote :: (r.name.toList ++ [quote]))

/-- Any way in which a node refers to a module by a literal. -/
def Refers (n lit : Node) : Prop :=
  IsModuleStatement n lit ∨ IsImportCall n lit ∨ IsRequire n lit

theorem Refers.isConstruct {n lit : Node} (h : Refers n lit) : n.isConstruct = true := by
  rcases h with ⟨hkind | hkind, -⟩ | ⟨⟨hkind, -⟩, -⟩ | ⟨⟨hkind, -⟩, -⟩ <;>
    simp [Node.isConstruct, hkind]

theorem Refers.isLiteral {n lit : Node} (h : Refers n lit) : lit.isLiteral = true := by
  rcases h with ⟨-, -, hkind⟩ | ⟨⟨-, -, hlit⟩, -⟩ | ⟨⟨-, -, hlit⟩, -⟩
  · simp [Node.isLiteral, hkind]
  · exact hlit
  · exact hlit

/-- A literal leads a node: nothing before it in the node could name a module. -/
inductive Leads : Node → Node → Prop where
  | child {n lit : Node} {left right : List Node} (split : n.children = left ++ lit :: right)
      (bare : ∀ c ∈ left, c.isBare = true) : Leads n lit
  | deeper {n m lit : Node} {left right : List Node} (split : n.children = left ++ m :: right)
      (bare : ∀ c ∈ left, c.isBare = true) (plain : m.isConstruct = false) (leads : Leads m lit) :
      Leads n lit

variable {source : List Char} {n lit : Node}

theorem TakesLiteral.leads (h : TakesLiteral n lit) (hn : n.AllShaped source) {callee : Node}
    (hcallee : n.child? .function = some callee) (hatomic : callee.isAtomic = true) :
    Leads n lit := by
  obtain ⟨hkind, hfirst, -⟩ := h
  rw [Node.callArguments] at hfirst
  cases hargs : n.child? .arguments with
  | none => simp [hargs] at hfirst
  | some args =>
    simp only [hargs] at hfirst
    have hargsShaped := hn.child (List.mem_of_find?_eq_some hargs)
    obtain ⟨right, hsplit⟩ := Node.children_eq_before hargs
    obtain ⟨left', right', hsplit', hleft'⟩ := Node.arguments_children_eq hfirst
    -- The literal leads the node of the arguments, and before that node there are only the callee,
    -- comments and marks.
    refine .deeper hsplit ?_ ?_ (.child hsplit' ?_)
    · intro c hc
      rcases hn.shaped.callee hkind c hc with hcall | hbare
      · obtain rfl : callee = c := Option.some.inj (hcallee.symm.trans hcall)
        exact (hn.child (List.mem_of_find?_eq_some hcall)).shaped.atomic hatomic
      · exact hbare
    · rcases hn.shaped.arguments hkind args hargs with ha | ha <;> simp [Node.isConstruct, ha]
    · intro c hc
      have hmem : c ∈ args.children := by
        rw [hsplit']
        exact List.mem_append_left _ hc
      exact (hargsShaped.child hmem).shaped.atomic (hleft' c hc)

theorem Refers.leads (h : Refers n lit) (hn : n.AllShaped source) : Leads n lit := by
  rcases h with ⟨hkind, hlit, -⟩ | ⟨htakes, callee, hc, hk⟩ | ⟨htakes, callee, hc, hk, -⟩
  · obtain ⟨right, hsplit⟩ := Node.children_eq_before hlit
    exact .child hsplit (hn.shaped.statement hkind lit hlit).2
  · exact htakes.leads hn hc (by simp [Node.isAtomic, hk])
  · exact htakes.leads hn hc (by simp [Node.isAtomic, hk])

namespace Leads

theorem allShaped (h : Leads n lit) (hn : n.AllShaped source) : lit.AllShaped source := by
  induction h with
  | child split _ => exact hn.child (split ▸ List.mem_append_cons_self)
  | deeper split _ _ _ ih => exact ih (hn.child (split ▸ List.mem_append_cons_self))

theorem inside (h : Leads n lit) (hn : n.AllShaped source) :
    n.span.start ≤ lit.span.start ∧ lit.span.stop ≤ n.span.stop := by
  induction h with
  | child split _ => exact hn.shaped.inside _ (split ▸ List.mem_append_cons_self)
  | deeper split _ _ _ ih =>
    have hmem := split ▸ List.mem_append_cons_self
    have houter := hn.shaped.inside _ hmem
    have hinner := ih (hn.child hmem)
    omega

end Leads

section order

variable {find : Node → Option Node}

def literals (find : Node → Option Node) (n : Node) : List Node := n.preorder.filterMap find

theorem literals_eq (n : Node) :
    literals find n = (find n).toList ++ n.children.flatMap (literals find) := by
  rw [literals, Node.preorder_eq, List.filterMap_cons, List.filterMap_flatMap]
  cases find n <;> rfl

variable (hfind : ∀ n lit, find n = some lit → Refers n lit)

include hfind

theorem find_eq_none (h : n.isConstruct = false) : find n = none := by
  cases hn : find n with
  | none => rfl
  | some lit => exact absurd (hfind n lit hn).isConstruct (by simp [h])

theorem literals_eq_nil (h : n.isBare = true) : literals find n = [] := by
  refine List.filterMap_eq_nil_iff.mpr fun m hm => ?_
  exact find_eq_none hfind (Node.isBare_of_mem_preorder h hm)

theorem shaped_of_mem_literals (hn : n.AllShaped source) {r : Node} (hr : r ∈ literals find n) :
    r.isLiteral = true ∧ r.Shaped source := by
  obtain ⟨m, hm, hr⟩ := List.mem_filterMap.mp hr
  have hrefers := hfind m r hr
  have hmShaped : m.AllShaped source := fun k hk => hn k (Node.mem_preorder_trans hm hk)
  exact ⟨hrefers.isLiteral, ((hrefers.leads hmShaped).allShaped hmShaped).shaped⟩

theorem literals_inside (hn : n.AllShaped source) :
    ∀ r ∈ literals find n, n.span.start ≤ r.span.start ∧ r.span.stop ≤ n.span.stop := by
  induction n using Node.induct with
  | step n ih =>
    intro r hr
    rw [literals_eq, List.mem_append, List.mem_flatMap] at hr
    rcases hr with hr | ⟨c, hc, hr⟩
    · exact ((hfind n r (Option.mem_toList.mp hr)).leads hn).inside hn
    · have houter := hn.shaped.inside c hc
      have hinner := ih c hc (hn.child hc) r hr
      omega

theorem mem_or_le_of_split (hn : n.AllShaped source) {m : Node} {left right : List Node}
    (split : n.children = left ++ m :: right) (bare : ∀ c ∈ left, c.isBare = true) {r : Node}
    (hr : r ∈ n.children.flatMap (literals find)) :
    r ∈ literals find m ∨ m.span.stop ≤ r.span.start := by
  obtain ⟨c, hc, hr⟩ := List.mem_flatMap.mp hr
  have hinside := literals_inside hfind (hn.child hc) r hr
  have hordered := hn.shaped.ordered
  rw [split] at hc hordered
  -- Left of the split nothing is found, and right of it the children are ordered.
  rcases List.mem_append.mp hc with hleft | hright
  · rw [literals_eq_nil hfind (bare c hleft)] at hr
    cases hr
  · rcases List.mem_cons.mp hright with rfl | hafter
    · exact .inl hr
    · have hle := List.rel_of_pairwise_cons (List.pairwise_append.mp hordered).2.1 hafter
      exact .inr (by omega)

/-- All other literals found below a node come after the one that leads it. -/
theorem Leads.le (h : Leads n lit) (hbare : lit.isBare = true) (hn : n.AllShaped source) :
    ∀ r ∈ n.children.flatMap (literals find), lit.span.stop ≤ r.span.start := by
  induction h with
  | child split bare =>
    intro r hr
    rcases mem_or_le_of_split hfind hn split bare hr with hlit | hle
    · rw [literals_eq_nil hfind hbare] at hlit
      cases hlit
    · exact hle
  | deeper split bare plain leads ih =>
    intro r hr
    have hm := hn.child (split ▸ List.mem_append_cons_self)
    rcases mem_or_le_of_split hfind hn split bare hr with hdeeper | hle
    · rw [literals_eq, find_eq_none hfind plain, Option.toList_none, List.nil_append] at hdeeper
      exact ih hbare hm r hdeeper
    · have hinside := leads.inside hm
      omega

/-- The literals found in a tree of the grammar's shape begin at increasing offsets, though the walk
meets the nodes that refer and not their literals. -/
theorem pairwise_literals (hn : n.AllShaped source) :
    (literals find n).Pairwise fun a b => a.span.start < b.span.start := by
  induction n using Node.induct with
  | step n ih =>
    -- Below the children the order is that of the children, since literals lie inside them.
    have hchildren : (n.children.flatMap (literals find)).Pairwise
        fun a b => a.span.start < b.span.start := by
      refine List.pairwise_flatMap.mpr ⟨fun c hc => ih c hc (hn.child hc), ?_⟩
      refine hn.shaped.ordered.imp_of_mem fun {c d} hc hd hle x hx y hy => ?_
      have hx' := shaped_of_mem_literals hfind (hn.child hc) hx
      have hpos := hx'.2.start_lt_stop hx'.1
      have hinx := literals_inside hfind (hn.child hc) x hx
      have hiny := literals_inside hfind (hn.child hd) y hy
      omega
    rw [literals_eq]
    cases hfound : find n with
    | none => exact hchildren
    | some lit =>
      -- The literal of the node itself is met first, and leads all that is found below.
      have hrefers := hfind n lit hfound
      have hleads := hrefers.leads hn
      have hlit := (hleads.allShaped hn).shaped
      have hbare := hlit.atomic (by simp [Node.isAtomic, hrefers.isLiteral])
      have hpos := hlit.start_lt_stop hrefers.isLiteral
      refine List.pairwise_cons.mpr ⟨fun r hr => ?_, hchildren⟩
      exact Nat.lt_of_lt_of_le hpos (hleads.le hfind hbare hn r hr)

end order

/-- The literal by which a node refers to a module, for CommonJS. -/
def requireLiteral? (n : Node) : Option Node :=
  if n.isCallOf "require" then n.firstLiteral? else none

/-- The literal by which a node refers to a module, for ES6. -/
def es6Literal? (options : Es6Options) (n : Node) : Option Node :=
  if n.kind = .importStatement ∨ n.kind = .exportStatement then
    (n.child? .source).filter (·.kind == .string)
  else if (n.isDynamicImport && !options.skipAsyncImports) ||
      (options.mixedImports && n.isCallOf "require") then n.firstLiteral?
  else none

theorem requireLiteral?_eq_some : requireLiteral? n = some lit ↔ IsRequire n lit := by
  rw [requireLiteral?, Option.ite_none_right_eq_some, Node.isCallOf_iff,
    Node.firstLiteral?_eq_some]
  constructor
  · rintro ⟨⟨hkind, hcallee⟩, hfirst, hlit⟩
    exact ⟨⟨hkind, hfirst, hlit⟩, hcallee⟩
  · rintro ⟨⟨hkind, hfirst, hlit⟩, hcallee⟩
    exact ⟨⟨hkind, hcallee⟩, hfirst, hlit⟩

theorem es6Literal?_eq_some {options : Es6Options} :
    es6Literal? options n = some lit ↔ IsEs6Reference options n lit := by
  rw [es6Literal?]
  by_cases hstatement : n.kind = .importStatement ∨ n.kind = .exportStatement
  · -- A module statement is no call.
    have hcall : n.kind ≠ .callExpression := by
      rcases hstatement with h | h <;> simp [h]
    rw [if_pos hstatement, Option.filter_eq_some_iff, beq_iff_eq]
    constructor
    · exact fun ⟨hsource, hkind⟩ => .inl ⟨hstatement, hsource, hkind⟩
    · rintro (⟨-, h⟩ | ⟨-, ⟨h, -⟩, -⟩ | ⟨-, ⟨h, -⟩, -⟩)
      · exact h
      · exact absurd h hcall
      · exact absurd h hcall
  · rw [if_neg hstatement, Option.ite_none_right_eq_some, Node.firstLiteral?_eq_some,
      Bool.or_eq_true, Bool.and_eq_true, Bool.and_eq_true, Node.isDynamicImport_iff,
      Node.isCallOf_iff, Bool.not_eq_true']
    constructor
    · rintro ⟨⟨⟨hkind, hcallee⟩, hskip⟩ | ⟨hmixed, hkind, hcallee⟩, hfirst, hlit⟩
      · exact .inr (.inl ⟨hskip, ⟨hkind, hfirst, hlit⟩, hcallee⟩)
      · exact .inr (.inr ⟨hmixed, ⟨hkind, hfirst, hlit⟩, hcallee⟩)
    · rintro (⟨h, -⟩ | ⟨hskip, ⟨hkind, hfirst, hlit⟩, hcallee⟩ |
        ⟨hmixed, ⟨hkind, hfirst, hlit⟩, hcallee⟩)
      · exact absurd h hstatement
      · exact ⟨.inl ⟨⟨hkind, hcallee⟩, hskip⟩, hfirst, hlit⟩
      · exact ⟨.inr ⟨hmixed, hkind, hcallee⟩, hfirst, hlit⟩

theorem IsEs6Reference.refers {options : Es6Options} (h : IsEs6Reference options n lit) :
    Refers n lit := by
  rcases h with h | ⟨-, h⟩ | ⟨-, h⟩
  · exact .inl h
  · exact .inr (.inl h)
  · exact .inr (.inr h)

theorem reference?_eq (options : Es6Options) (hn : n.Shaped source) :
    Es6.reference? options n = (es6Literal? options n).bind Node.stringValue? := by
  rw [Es6.reference?, Es6.statementSource?, Es6.loaded?, es6Literal?, Node.firstString?_eq]
  by_cases hstatement : n.kind = .importStatement ∨ n.kind = .exportStatement
  · -- A module statement is no call, so that only its source counts.
    have hcall : n.kind ≠ .callExpression := by
      rcases hstatement with h | h <;> simp [h]
    rw [if_pos hstatement, if_pos hstatement, Node.isDynamicImport_eq_false hcall,
      Node.isCallOf_eq_false hcall, Bool.false_and, Bool.and_false, Bool.or_false,
      if_neg Bool.false_ne_true, Option.or_none]
    cases hsource : n.child? .source with
    | none => rfl
    | some lit =>
      have hkind := (hn.statement hstatement lit hsource).1
      rw [Option.filter_some, hkind]
      rfl
  · rw [if_neg hstatement, if_neg hstatement, Option.none_or]
    split <;> rfl

def referenceAt? (find : Node → Option Node) (p : Place) (n : Node) : Option Reference :=
  (find n).map fun lit => ⟨p, lit, lit.stringValue?.getD ""⟩

def references (find : Node → Option Node) (t : Script.Tree) : List Reference :=
  (t.root.met fun _ => true).filterMap fun (p, n) => referenceAt? find p n

theorem mem_references {find : Node → Option Node} {t : Script.Tree} {r : Reference} :
    r ∈ references find t ↔ ∃ n, t.root.nodeAt? r.place = some n ∧ find n = some r.literal ∧
      r.name = r.literal.stringValue?.getD "" := by
  rw [references, List.mem_filterMap]
  constructor
  · rintro ⟨⟨p, n⟩, hmet, hr⟩
    obtain ⟨lit, hlit, rfl⟩ := Option.map_eq_some_iff.mp hr
    exact ⟨n, (Node.mem_met_true).mp hmet, hlit, rfl⟩
  · rintro ⟨n, hat, hlit, hname⟩
    refine ⟨(r.place, n), (Node.mem_met_true).mpr hat, ?_⟩
    exact Option.map_eq_some_iff.mpr ⟨r.literal, hlit, by rw [← hname]⟩

theorem map_literal_references (find : Node → Option Node) (t : Script.Tree) :
    (references find t).map (·.literal) = literals find t.root := by
  rw [literals, Node.preorder, ← Node.map_snd_met, List.filterMap_map, references,
    List.map_filterMap]
  apply List.filterMap_congr
  rintro ⟨p, n⟩ -
  simp only [referenceAt?, Option.map_map, Function.comp_def, Option.map_id_fun', id_eq]

theorem map_name_references {find : Node → Option Node} {t : Script.Tree}
    (hfind : ∀ n lit, find n = some lit → Refers n lit) :
    (references find t).map (·.name) =
      t.root.preorder.filterMap fun n => (find n).bind Node.stringValue? := by
  rw [Node.preorder, ← Node.map_snd_met, List.filterMap_map, references, List.map_filterMap]
  apply List.filterMap_congr
  rintro ⟨p, n⟩ -
  simp only [referenceAt?, Option.map_map, Function.comp_def]
  cases hfound : find n with
  | none => rfl
  | some lit =>
    have hvalue : lit.stringValue? = some (Node.unquoted lit.text) := by
      rw [Node.stringValue?_eq, if_pos (hfind n lit hfound).isLiteral]
    rw [Option.map_some, Option.bind_some, hvalue, Option.getD_some]

theorem findsExactly_references {t : Script.Tree} (ht : t.Shaped) {find : Node → Option Node}
    {R : Node → Node → Prop} (hR : ∀ n lit, find n = some lit ↔ R n lit)
    (hfind : ∀ n lit, find n = some lit → Refers n lit) :
    FindsExactly t R (references find t) where
  mem_iff p lit := by
    constructor
    · rintro ⟨r, hr, rfl, rfl⟩
      obtain ⟨n, hat, hlit, -⟩ := mem_references.mp hr
      exact ⟨n, hat, (hR n r.literal).mp hlit⟩
    · rintro ⟨n, hat, href⟩
      exact ⟨⟨p, lit, lit.stringValue?.getD ""⟩,
        mem_references.mpr ⟨n, hat, (hR n lit).mpr href, rfl⟩, rfl, rfl⟩
  increasing := by
    have hpairs := pairwise_literals hfind ht
    rw [← map_literal_references, List.pairwise_map] at hpairs
    exact hpairs
  quoted r hr := by
    have hmem : r.literal ∈ literals find t.root := by
      rw [← map_literal_references]
      exact List.mem_map_of_mem hr
    obtain ⟨hlit, hshaped⟩ := shaped_of_mem_literals hfind ht hmem
    obtain ⟨quote, hq, value, hvalue, hholds⟩ := hshaped.exists_stringValue? hlit
    obtain ⟨n, -, -, hname⟩ := mem_references.mp hr
    rw [hvalue, Option.getD_some] at hname
    exact ⟨quote, hq, hname ▸ hholds⟩

/-- Both extractors succeed on a tree of the grammar's shape and report exactly its references, in
the order of the text: CommonJS the calls of `require` with a literal, ES6 the module statements
and, as its options say, the calls of `import` and of `require` with a literal. -/
theorem dependencies_report_references (t : Script.Tree) (ht : t.Shaped) :
    (∃ found, FindsExactly t IsRequire found ∧
      CommonJs.extract (.tree (.script t)) = .ok ⟨found.map (·.name), none⟩) ∧
    ∀ options : Es6Options, ∃ found, FindsExactly t (IsEs6Reference options) found ∧
      Es6.extract options (.tree (.script t)) = .ok ⟨found.map (·.name), none⟩ := by
  constructor
  · have hfind (n lit) (h : requireLiteral? n = some lit) : Refers n lit :=
      .inr (.inr (requireLiteral?_eq_some.mp h))
    refine ⟨references requireLiteral? t,
      findsExactly_references ht (fun _ _ => requireLiteral?_eq_some) hfind, ?_⟩
    have hdeps : CommonJs.dependencies t = (references requireLiteral? t).map (·.name) := by
      rw [map_name_references hfind, CommonJs.dependencies]
      refine List.filterMap_congr fun n _ => ?_
      rw [CommonJs.required?, requireLiteral?, Node.firstString?_eq]
      split <;> rfl
    rw [← hdeps]
    rfl
  · intro options
    have hfind (n lit) (h : es6Literal? options n = some lit) : Refers n lit :=
      (es6Literal?_eq_some.mp h).refers
    refine ⟨references (es6Literal? options) t,
      findsExactly_references ht (fun _ _ => es6Literal?_eq_some) hfind, ?_⟩
    have hdeps : Es6.dependencies options t =
        (references (es6Literal? options) t).map (·.name) := by
      rw [map_name_references hfind, Es6.dependencies]
      exact List.filterMap_congr fun n hn => reference?_eq options (ht n hn)
    rw [← hdeps]
    rfl

/-- The call of `import` in the text `require("a",import('b'))`. -/
def nestedImport : Node :=
  .mk .callExpression none ⟨12, 23⟩ "" false false [
    .mk .import_ (some .function) ⟨12, 18⟩ "import" false false [],
    .mk .arguments (some .arguments) ⟨18, 23⟩ "" false false [
      .mk (.mark "(") none ⟨18, 19⟩ "(" false false [],
      .mk .string none ⟨19, 22⟩ "'b'" false false [],
      .mk (.mark ")") none ⟨22, 23⟩ ")" false false []]]

/-- The tree of the text `require("a",import('b'))`. -/
def nestedCalls : Script.Tree where
  source := "require(\"a\",import('b'))"
  root := .mk .program none ⟨0, 24⟩ "" false false [
    .mk .callExpression none ⟨0, 24⟩ "" false false [
      .mk .identifier (some .function) ⟨0, 7⟩ "require" false false [],
      .mk .arguments (some .arguments) ⟨7, 24⟩ "" false false [
        .mk (.mark "(") none ⟨7, 8⟩ "(" false false [],
        .mk .string none ⟨8, 11⟩ "\"a\"" false false [],
        .mk (.mark ",") none ⟨11, 12⟩ "," false false [],
        nestedImport,
        .mk (.mark ")") none ⟨23, 24⟩ ")" false false []]]]

theorem shaped_nestedCalls : nestedCalls.Shaped := by
  have htoken (kind field start stop text)
      (hconstruct : (Node.mk kind field ⟨start, stop⟩ text false false []).isConstruct = false)
      (hlit : (Node.mk kind field ⟨start, stop⟩ text false false []).isLiteral = false) :
      (Node.mk kind field ⟨start, stop⟩ text false false []).AllShaped
        nestedCalls.source.toList :=
    .of_children (.of_token rfl hconstruct hlit) (List.forall_mem_nil _)
  have hstring (start stop text quote c left right) (hq : quote ∈ quoteMarks)
      (htext : text.toList = [quote, c, quote])
      (hsource : nestedCalls.source.toList = left ++ (text.toList ++ right))
      (hstart : start = Text.byteLength left)
      (hstop : stop = Text.byteLength (left ++ text.toList)) :
      (Node.mk .string none ⟨start, stop⟩ text false false []).AllShaped
        nestedCalls.source.toList := by
    refine .of_children ⟨List.Pairwise.nil, List.forall_mem_nil _, fun _ => ?_, fun _ => ?_,
      by simp [Node.kind], by simp [Node.kind], by simp [Node.kind]⟩ (List.forall_mem_nil _)
    · rw [Node.isBare_eq]
      rfl
    · exact ⟨quote, hq, [c], htext, left, right, hsource, hstart, hstop⟩
  have ha := hstring 8 11 "\"a\"" '\x22' 'a' "require(".toList ",import('b'))".toList
    (by decide) (by decide) (by decide) (by decide) (by decide)
  have hb := hstring 19 22 "'b'" '\x27' 'b' "require(\"a\",import(".toList "))".toList
    (by decide) (by decide) (by decide) (by decide) (by decide)
  have himport : nestedImport.AllShaped nestedCalls.source.toList := by
    refine .of_children (.of_call rfl rfl rfl rfl rfl (by decide) (by decide)) ?_
    simp only [nestedImport, Node.children, List.forall_mem_cons]
    refine ⟨htoken _ _ _ _ _ rfl rfl, .of_children (.of_plain rfl rfl (by decide) (by decide)) ?_,
      List.forall_mem_nil _⟩
    simp only [Node.children, List.forall_mem_cons]
    exact ⟨htoken _ _ _ _ _ rfl rfl, hb, htoken _ _ _ _ _ rfl rfl, List.forall_mem_nil _⟩
  refine .of_children (.of_plain rfl rfl (by decide) (by decide)) ?_
  simp only [nestedCalls, Node.children, List.forall_mem_cons]
  refine ⟨.of_children (.of_call rfl rfl rfl rfl rfl (by decide) (by decide)) ?_,
    List.forall_mem_nil _⟩
  simp only [Node.children, List.forall_mem_cons]
  refine ⟨htoken _ _ _ _ _ rfl rfl, .of_children (.of_plain rfl rfl (by decide) (by decide)) ?_,
    List.forall_mem_nil _⟩
  simp only [Node.children, List.forall_mem_cons]
  exact ⟨htoken _ _ _ _ _ rfl rfl, ha, htoken _ _ _ _ _ rfl rfl, himport,
    htoken _ _ _ _ _ rfl rfl, List.forall_mem_nil _⟩

theorem nestedCalls_report_references : nestedCalls.Shaped ∧
    (∃ found, FindsExactly nestedCalls IsRequire found ∧
      CommonJs.extract (.tree (.script nestedCalls)) = .ok ⟨found.map (·.name), none⟩) ∧
    ∀ options : Es6Options, ∃ found, FindsExactly nestedCalls (IsEs6Reference options) found ∧
      Es6.extract options (.tree (.script nestedCalls)) = .ok ⟨found.map (·.name), none⟩ :=
  ⟨shaped_nestedCalls, dependencies_report_references nestedCalls shaped_nestedCalls⟩

end SourceDeps.Extract

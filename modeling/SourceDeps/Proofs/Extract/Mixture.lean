import Mathlib.Data.List.Basic
import SourceDeps.Extract.Es6
import SourceDeps.Proofs.Script.Call
import SourceDeps.Proofs.Script.Place

namespace SourceDeps.Extract

open SourceDeps.Script

/-- A reported name, with the node that gives it and the place of that node. -/
structure Entry where
  place : Place
  node : Node
  name : String

/-- The entries are the names that nodes of a tree give, at any depth and each node once, in the
order of a walk. -/
structure ListsAll (t : Script.Tree) (Gives : Node → String → Prop) (found : List Entry) :
    Prop where
  mem_iff : ∀ e, e ∈ found ↔ t.root.nodeAt? e.place = some e.node ∧ Gives e.node e.name
  pairwise : found.Pairwise fun a b => a.place < b.place

def entryAt? (give : Node → Option String) (p : Place) (n : Node) : Option Entry :=
  (give n).map fun name => ⟨p, n, name⟩

def entries (give : Node → Option String) (t : Script.Tree) : List Entry :=
  (t.root.met fun _ => true).filterMap fun (p, n) => entryAt? give p n

section
variable {give : Node → Option String}

theorem entryAt?_eq_some {p : Place} {n : Node} {e : Entry} :
    entryAt? give p n = some e ↔ e.place = p ∧ e.node = n ∧ give n = some e.name := by
  rw [entryAt?, Option.map_eq_some_iff]
  constructor
  · rintro ⟨name, hname, rfl⟩
    exact ⟨rfl, rfl, hname⟩
  · rintro ⟨rfl, rfl, hname⟩
    exact ⟨e.name, hname, rfl⟩

theorem listsAll_entries {Gives : Node → String → Prop}
    (hgive : ∀ n name, give n = some name ↔ Gives n name) (t : Script.Tree) :
    ListsAll t Gives (entries give t) where
  mem_iff e := by
    rw [entries, List.mem_filterMap]
    constructor
    · rintro ⟨⟨p, n⟩, hmet, he⟩
      obtain ⟨rfl, rfl, hname⟩ := entryAt?_eq_some.mp he
      exact ⟨Node.mem_met_true.mp hmet, (hgive _ _).mp hname⟩
    · rintro ⟨hat, hname⟩
      refine ⟨(e.place, e.node), Node.mem_met_true.mpr hat, ?_⟩
      exact entryAt?_eq_some.mpr ⟨rfl, rfl, (hgive _ _).mpr hname⟩
  pairwise := by
    -- An entry has the place of its node, and the walk meets places in order.
    apply (Node.pairwise_met (fun _ => true) t.root).filterMap
    rintro ⟨p, m⟩ ⟨q, n⟩ hpq a ha b hb
    obtain ⟨rfl, -⟩ := entryAt?_eq_some.mp ha
    obtain ⟨rfl, -⟩ := entryAt?_eq_some.mp hb
    exact hpq

/-- The names that nodes of one sort give, as the names that a walk gathers from those nodes. -/
theorem map_name_filter_entries {part : Node → Option String} {test : Node → Bool}
    (hpart : ∀ n, part n = if test n then give n else none) (t : Script.Tree) :
    ((entries give t).filter fun e => test e.node).map (·.name) =
      t.root.preorder.filterMap part := by
  have hnode (a : Place × Node) :
      ((entryAt? give a.1 a.2).filter fun e => test e.node).map (·.name) = part a.2 := by
    rw [hpart, entryAt?]
    cases give a.2 with
    | none => simp
    | some name => cases htest : test a.2 <;> simp [htest]
  calc
    ((entries give t).filter fun e => test e.node).map (·.name)
      = (t.root.met fun _ => true).filterMap fun a =>
          ((entryAt? give a.1 a.2).filter fun e => test e.node).map (·.name) := by
        rw [entries, List.filter_filterMap, List.map_filterMap]
    _ = (t.root.met fun _ => true).filterMap fun a => part a.2 :=
        List.filterMap_congr fun a _ => hnode a
    _ = t.root.preorder.filterMap part := by
        rw [Node.preorder, ← Node.map_snd_met, List.filterMap_map]
        rfl

theorem map_name_entries (give : Node → Option String) (t : Script.Tree) :
    (entries give t).map (·.name) = t.root.preorder.filterMap give := by
  have hall := @map_name_filter_entries give give (fun _ => true) (fun _ => rfl) t
  rwa [List.filter_true] at hall

end

namespace Es6

/-- The names that a node gives: the source of a module statement, the first argument of a call of
`import` unless these are left out, and that of a call of `require` if these are taken along. -/
inductive Gives (options : Es6Options) (n : Node) : String → Prop where
  | statement {source : Node} {name : String}
      (hkind : n.kind = .importStatement ∨ n.kind = .exportStatement)
      (hsource : n.child? .source = some source) (hname : source.stringValue? = some name) :
      Gives options n name
  | importCall {first : Node} {name : String} (hskip : options.skipAsyncImports = false)
      (hcall : n.isDynamicImport = true) (hfirst : n.callArguments.head? = some first)
      (hname : first.stringValue? = some name) : Gives options n name
  | requireCall {first : Node} {name : String} (hmixed : options.mixedImports = true)
      (hcall : n.isCallOf "require" = true) (hfirst : n.callArguments.head? = some first)
      (hname : first.stringValue? = some name) : Gives options n name

variable {n : Node}

theorem statementSource?_eq_none (h : n.kind = .callExpression) : statementSource? n = none := by
  rw [statementSource?, if_neg]
  rintro (hkind | hkind) <;> rw [h] at hkind <;> cases hkind

theorem loaded?_eq_none (options : Es6Options) (h : n.kind ≠ .callExpression) :
    loaded? options n = none := by
  rw [loaded?, Node.isDynamicImport_eq_false h, Node.isCallOf_eq_false h, Bool.false_and,
    Bool.and_false]
  rfl

theorem loaded?_eq_some {options : Es6Options} {name : String} :
    loaded? options n = some name ↔
      ((n.isDynamicImport = true ∧ options.skipAsyncImports = false) ∨
        (options.mixedImports = true ∧ n.isCallOf "require" = true)) ∧
      n.firstString? = some name := by
  rw [loaded?, Option.ite_none_right_eq_some, Bool.or_eq_true, Bool.and_eq_true, Bool.and_eq_true,
    Bool.not_eq_true']

theorem reference?_eq_some_iff {options : Es6Options} {name : String} :
    reference? options n = some name ↔ Gives options n name := by
  rw [reference?]
  by_cases hcall : n.kind = .callExpression
  · -- A call is no statement, so that only what it loads counts.
    rw [statementSource?_eq_none hcall, Option.none_or, loaded?_eq_some, Node.firstString?,
      Option.bind_eq_some_iff]
    constructor
    · rintro ⟨⟨himport, hskip⟩ | ⟨hmixed, hrequire⟩, first, hfirst, hname⟩
      · exact .importCall hskip himport hfirst hname
      · exact .requireCall hmixed hrequire hfirst hname
    · intro h
      cases h with
      | statement hkind => rcases hkind with hkind | hkind <;> rw [hcall] at hkind <;> cases hkind
      | importCall hskip himport hfirst hname =>
        exact ⟨.inl ⟨himport, hskip⟩, _, hfirst, hname⟩
      | requireCall hmixed hrequire hfirst hname =>
        exact ⟨.inr ⟨hmixed, hrequire⟩, _, hfirst, hname⟩
  · rw [loaded?_eq_none options hcall, Option.or_none, statementSource?,
      Option.ite_none_right_eq_some, Option.bind_eq_some_iff]
    constructor
    · rintro ⟨hkind, source, hsource, hname⟩
      exact .statement hkind hsource hname
    · intro h
      cases h with
      | statement hkind hsource hname => exact ⟨hkind, _, hsource, hname⟩
      | importCall _ himport => exact absurd (Node.isDynamicImport_iff.mp himport).1 hcall
      | requireCall _ hrequire => exact absurd (Node.isCallOf_iff.mp hrequire).1 hcall

/-- A callee is a name or the keyword `import`, not both. -/
theorem isDynamicImport_of_isCallOf {name : String} (h : n.isCallOf name = true) :
    n.isDynamicImport = false := by
  apply eq_false_of_ne_true
  intro himport
  obtain ⟨-, callee, hcallee, hkind, -⟩ := Node.isCallOf_iff.mp h
  obtain ⟨-, callee', hcallee', hkind'⟩ := Node.isDynamicImport_iff.mp himport
  obtain rfl : callee = callee' := Option.some.inj (hcallee.symm.trans hcallee')
  rw [hkind] at hkind'
  cases hkind'

/-- Of what a node gives with `require` calls, CommonJS gives what is given by such a call. -/
theorem required?_eq (skip : Bool) (n : Node) : CommonJs.required? n =
    if n.isCallOf "require" then reference? ⟨true, skip⟩ n else none := by
  rw [CommonJs.required?]
  cases hrequire : n.isCallOf "require" with
  | false => rfl
  | true =>
    have hstatement := statementSource?_eq_none (Node.isCallOf_iff.mp hrequire).1
    simp [reference?, hstatement, loaded?, hrequire]

theorem reference?_unmixed_eq (skip : Bool) (n : Node) : reference? ⟨false, skip⟩ n =
    if !n.isCallOf "require" then reference? ⟨true, skip⟩ n else none := by
  rw [reference?, reference?, loaded?, loaded?]
  cases hrequire : n.isCallOf "require" with
  | false => simp
  | true =>
    have hstatement := statementSource?_eq_none (Node.isCallOf_iff.mp hrequire).1
    simp [hstatement, isDynamicImport_of_isCallOf hrequire]

theorem reference?_skipped_eq (mixed : Bool) (n : Node) : reference? ⟨mixed, true⟩ n =
    if !n.isDynamicImport then reference? ⟨mixed, false⟩ n else none := by
  rw [reference?, reference?, loaded?, loaded?]
  cases himport : n.isDynamicImport with
  | false => simp
  | true =>
    have hstatement := statementSource?_eq_none (Node.isDynamicImport_iff.mp himport).1
    have hrequire : n.isCallOf "require" = false := by
      apply eq_false_of_ne_true
      intro hcall
      rw [isDynamicImport_of_isCallOf hcall] at himport
      cases himport
    simp [hstatement, hrequire]

end Es6

/-- With `require` calls, the list of ES6 falls into two parts, each in its order: what `require`
calls give is the list of CommonJS, and the rest is the list of ES6 without `require` calls. Where
calls of `import` are left out, exactly the entries that such calls give are missing. -/
theorem es6_entries_split (t : Script.Tree) :
    (∀ skip, ∃ mixed plain required,
      Es6.extract ⟨true, skip⟩ (.tree (.script t)) = .ok ⟨mixed, none⟩ ∧
      Es6.extract ⟨false, skip⟩ (.tree (.script t)) = .ok ⟨plain, none⟩ ∧
      CommonJs.extract (.tree (.script t)) = .ok ⟨required, none⟩ ∧
      mixed.length = plain.length + required.length ∧
      ∃ found, ListsAll t (Es6.Gives ⟨true, skip⟩) found ∧ mixed = found.map (·.name) ∧
        plain = (found.filter fun e => !e.node.isCallOf "require").map (·.name) ∧
        required = (found.filter fun e => e.node.isCallOf "require").map (·.name)) ∧
    ∀ mixed, ∃ found, ListsAll t (Es6.Gives ⟨mixed, false⟩) found ∧
      Es6.extract ⟨mixed, false⟩ (.tree (.script t)) = .ok ⟨found.map (·.name), none⟩ ∧
      Es6.extract ⟨mixed, true⟩ (.tree (.script t)) =
        .ok ⟨(found.filter fun e => !e.node.isDynamicImport).map (·.name), none⟩ := by
  have hlists (options : Es6Options) :
      ListsAll t (Es6.Gives options) (entries (Es6.reference? options) t) :=
    listsAll_entries (fun _ _ => Es6.reference?_eq_some_iff) t
  have hnames (options : Es6Options) :
      Es6.dependencies options t = (entries (Es6.reference? options) t).map (·.name) :=
    (map_name_entries _ t).symm
  constructor
  · intro skip
    have hplain := map_name_filter_entries (Es6.reference?_unmixed_eq skip) t
    have hrequired := map_name_filter_entries (Es6.required?_eq skip) t
    refine ⟨_, _, _, rfl, rfl, rfl, ?_, _, hlists _, hnames _, hplain.symm, hrequired.symm⟩
    -- Each entry is counted on one side, by whether its node calls `require`.
    rw [hnames, Es6.dependencies, ← hplain, CommonJs.dependencies, ← hrequired, List.length_map,
      List.length_map, List.length_map, Nat.add_comm]
    exact List.length_eq_length_filter_add _
  · intro mixed
    have hskipped := map_name_filter_entries (Es6.reference?_skipped_eq mixed) t
    refine ⟨_, hlists _, ?_, ?_⟩
    · rw [← hnames]
      rfl
    · rw [hskipped]
      rfl

end SourceDeps.Extract

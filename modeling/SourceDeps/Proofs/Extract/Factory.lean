import Mathlib.Data.List.Find
import SourceDeps.Extract.CommonJs
import SourceDeps.Proofs.Extract.Lazy

namespace SourceDeps.Extract

open SourceDeps.Script

/-- Where the first function among the arguments of a call stands, seen from the call. -/
def factoryPlace? (call : Node) : Option Place :=
  (call.children.findIdx? fun c => c.field == some .arguments).bind fun i =>
    call.children[i]?.bind fun args =>
      (args.children.findIdx? Node.isFunctionLike).map fun j => [i, j]

/-- At a place in a script there is a call of `define` without an array among its arguments. It is
the only AMD call that is handled, and all calls of `require` stand in its first function. -/
structure RequiresInFactory (root : Node) (p : Place) (call : Node) : Prop where
  at_place : root.nodeAt? p = some call
  define : call.isCallOf "define" = true
  no_list : ∀ a ∈ call.callArguments, a.kind ≠ .array
  handled_iff : ∀ q, Amd.Handled root q ↔ q = p
  inside : ∀ q n, root.nodeAt? q = some n → n.isCallOf "require" = true →
    ∃ r, factoryPlace? call = some r ∧ p ++ r <+: q

theorem find?_isFunctionLike_callArguments (call : Node) :
    call.callArguments.find? Node.isFunctionLike =
      (call.child? .arguments).bind fun args => args.children.find? Node.isFunctionLike := by
  rw [Node.callArguments_eq]
  cases call.child? .arguments with
  | none => rfl
  | some args =>
    rw [Option.bind_some, List.find?_filter]
    apply List.find?_congr
    intro a _
    cases hf : a.isFunctionLike with
    | true => simp [Node.isArgument_of_isFunctionLike hf]
    | false => simp

/-- The node at that place is the first function among the arguments. -/
theorem nodeAt?_factoryPlace? (call : Node) :
    (factoryPlace? call).bind call.nodeAt? = call.callArguments.find? Node.isFunctionLike := by
  rw [find?_isFunctionLike_callArguments, factoryPlace?, Node.child?,
    List.find?_eq_bind_findIdx?_getElem?, Option.bind_assoc, Option.bind_assoc]
  refine Option.bind_congr fun i _ => ?_
  cases hargs : call.children[i]? with
  | none => rfl
  | some args =>
    rw [Option.bind_some, Option.bind_some, List.find?_eq_bind_findIdx?_getElem?,
      Option.bind_map]
    refine Option.bind_congr fun j _ => ?_
    rw [Function.comp_apply, Node.nodeAt?, hargs, Option.bind_some, Node.nodeAt?]
    cases args.children[j]? <;> rfl

/-- Without the lists of arrays, a call gives AMD what it gives CommonJS. -/
theorem requiredBy_false (n : Node) : Amd.requiredBy false n = (CommonJs.required? n).toList := by
  rw [Amd.requiredBy, CommonJs.required?, Node.firstString?]
  cases n.isCallOf "require" with
  | false => rfl
  | true =>
    cases n.callArguments with
    | nil => rfl
    | cons first rest =>
      cases harray : first.isArray with
      | false => simp [harray]
      | true =>
        -- An array is no literal, so that CommonJS finds no name either.
        have hnone : first.stringValue? = none := by
          apply Option.isNone_iff_eq_none.mp
          rw [← Option.isSome_eq_false_iff]
          apply eq_false_of_ne_true
          intro hvalue
          rw [Node.isArray_of_stringValue? hvalue] at harray
          cases harray
        simp [harray, hnone]

theorem innerRequires_false (f : Node) :
    Amd.innerRequires false f = f.preorder.filterMap CommonJs.required? := by
  rw [Amd.innerRequires, List.filterMap_eq_flatMap_toList]
  exact List.flatMap_congr fun n _ => requiredBy_false n

/-- A definition without a list gives what its factory requires one by one. -/
theorem contribution_of_no_list {call : Node} (hcall : call.isCallOf "define" = true)
    (hlist : ∀ a ∈ call.callArguments, a.kind ≠ .array) :
    Amd.contribution ⟨true⟩ call =
      (call.callArguments.find? Node.isFunctionLike).toList.flatMap (Amd.innerRequires false) := by
  have hnone : call.callArguments.find? Node.isArray = none := by
    rw [List.find?_eq_none]
    intro a ha
    simpa [Node.isArray] using hlist a ha
  rw [Amd.contribution, if_pos hcall, Amd.ofDefine, Amd.find?_isArray_unnamed,
    Amd.find?_isFunctionLike_unnamed, hnone]
  cases call.callArguments.find? Node.isFunctionLike with
  | none => rfl
  | some f =>
    rw [Option.toList_some, List.flatMap_singleton]
    rfl

variable {t : Script.Tree} {p : Place} {call : Node}

namespace RequiresInFactory

theorem mentioned_eq (h : RequiresInFactory t.root p call) :
    Amd.mentioned ⟨true⟩ t = Amd.contribution ⟨true⟩ call := by
  have honly : t.root.Enumerates (fun q _ => Amd.Handled t.root q) [(p, call)] := by
    refine ⟨fun q n => ?_, List.pairwise_singleton _ _⟩
    rw [List.mem_singleton, Prod.mk.injEq, h.handled_iff]
    constructor
    · rintro ⟨rfl, rfl⟩
      exact ⟨h.at_place, rfl⟩
    · rintro ⟨hn, rfl⟩
      exact ⟨rfl, Option.some.inj (hn.symm.trans h.at_place)⟩
  rw [Amd.mentioned_eq, (Amd.enumerates_handled t.root).eq honly, List.flatMap_singleton]

/-- All that CommonJS finds in the script it finds in the factory. -/
theorem dependencies_eq (h : RequiresInFactory t.root p call) :
    CommonJs.dependencies t = (call.callArguments.find? Node.isFunctionLike).toList.flatMap
      (Amd.innerRequires false) := by
  have hfound := Node.enumerates_filter_met_true t.root fun n => n.isCallOf "require"
  rw [CommonJs.dependencies, ← innerRequires_false, Amd.innerRequires_eq, ← nodeAt?_factoryPlace?]
  cases hfactory : (factoryPlace? call).bind call.nodeAt? with
  | none =>
    -- Without a factory there is no place left for a call of `require`.
    have hnone : t.root.Enumerates (fun _ n => n.isCallOf "require" = true) [] := by
      refine ⟨fun q n => iff_of_false List.not_mem_nil ?_, List.Pairwise.nil⟩
      rintro ⟨hn, hcall⟩
      obtain ⟨r, hr, s, rfl⟩ := h.inside q n hn hcall
      rw [hr, Option.bind_some] at hfactory
      rw [Node.nodeAt?_append, Node.nodeAt?_append, h.at_place, Option.bind_some, hfactory] at hn
      cases hn
    rw [hfound.eq hnone]
    rfl
  | some f =>
    obtain ⟨r, hr, hf⟩ := Option.bind_eq_some_iff.mp hfactory
    have hplace : t.root.nodeAt? (p ++ r) = some f := by
      rw [Node.nodeAt?_append, h.at_place, Option.bind_some, hf]
    have hbelow := (Node.enumerates_filter_met_true f fun n => n.isCallOf "require").below hplace
      fun q n hn hcall => by
        obtain ⟨r', hr', hq⟩ := h.inside q n hn hcall
        obtain rfl : r = r' := Option.some.inj (hr.symm.trans hr')
        exact hq
    rw [hfound.eq hbelow, List.flatMap_map, Option.toList_some, List.flatMap_singleton,
      Amd.innerRequires_eq]

end RequiresInFactory

/-- Where all calls of `require` stand in the factory of the only definition, and that has no list,
AMD without what is required lazily reports what CommonJS reports, less the names of the module
system and with each name only where it is first required. -/
theorem extract_factory_eq_commonJs (t : Script.Tree) (p : Place) (call : Node)
    (h : RequiresInFactory t.root p call) :
    ∃ names, CommonJs.extract (.tree (.script t)) = .ok ⟨names, none⟩ ∧
      Amd.extract ⟨true⟩ (.tree (.script t)) =
        .ok ⟨(names.filter (· ∉ Amd.pseudoModules)).eraseDups, none⟩ := by
  have hmentioned : Amd.mentioned ⟨true⟩ t = CommonJs.dependencies t := by
    rw [h.mentioned_eq, contribution_of_no_list h.define h.no_list, h.dependencies_eq]
  refine ⟨CommonJs.dependencies t, rfl, ?_⟩
  rw [Amd.extract, fromScript_tree, Amd.dependencies, Amd.distinct_eq, hmentioned]
  simp

def markAt (byte : Nat) (text : String) : Node :=
  .mk (.mark text) none ⟨byte, byte + text.length⟩ text false false []

/-- The string with a given body at a byte of a text. -/
def stringAt (byte : Nat) (body : String) : Node :=
  .mk .string none ⟨byte, byte + body.length + 2⟩ ("'" ++ body ++ "'") false false [
    markAt byte "'",
    .mk (.other "string_fragment") none ⟨byte + 1, byte + 1 + body.length⟩ body false false [],
    markAt (byte + 1 + body.length) "'"]

/-- The call of a name with one argument at a byte of a text. -/
def callAt (byte : Nat) (name : String) (argument : Node) : Node :=
  .mk .callExpression none ⟨byte, argument.span.stop + 1⟩ "" false false [
    .mk .identifier (some .function) ⟨byte, byte + name.length⟩ name false false [],
    .mk .arguments (some .arguments) ⟨byte + name.length, argument.span.stop + 1⟩ "" false false [
      markAt (byte + name.length) "(", argument, markAt argument.span.stop ")"]]

/-- The function `()=>[require('a'),require(['c']),require('exports'),require('a')]` at the byte 7
of a text. -/
def listingFactory : Node :=
  .mk .arrowFunction none ⟨7, 72⟩ "" false false [
    Amd.parametersAt 7,
    markAt 9 "=>",
    .mk .array none ⟨11, 72⟩ "" false false [
      markAt 11 "[", callAt 12 "require" (stringAt 20 "a"),
      markAt 24 ",", callAt 25 "require" (.mk .array none ⟨33, 38⟩ "" false false [
        markAt 33 "[", stringAt 34 "c", markAt 37 "]"]),
      markAt 39 ",", callAt 40 "require" (stringAt 48 "exports"),
      markAt 58 ",", callAt 59 "require" (stringAt 67 "a"), markAt 71 "]"]]

/-- The program of a text that is `define` with that function. -/
def listingProgram : Script.Tree where
  source := "define(()=>[require('a'),require(['c']),require('exports'),require('a')])"
  root := .mk .program none ⟨0, 73⟩ "" false false [
    .mk .expressionStatement none ⟨0, 73⟩ "" false false [callAt 0 "define" listingFactory]]

theorem requiresInFactory_listingProgram :
    RequiresInFactory listingProgram.root [0, 0] (callAt 0 "define" listingFactory) where
  at_place := rfl
  define := by decide
  no_list := by
    have hargs : (callAt 0 "define" listingFactory).callArguments = [listingFactory] := rfl
    rw [hargs, List.forall_mem_singleton]
    decide
  handled_iff q := by
    have hmem : ∀ n, (q, n) ∈ [([0, 0], callAt 0 "define" listingFactory)] ↔
        listingProgram.root.nodeAt? q = some n ∧ Amd.Handled listingProgram.root q :=
      (Amd.enumerates_handled listingProgram.root).mem_iff q
    constructor
    · intro hhandled
      have hcall := hhandled
      rw [Amd.Handled] at hcall
      obtain ⟨⟨n, hn, -⟩, -⟩ := hcall
      have hsame := (hmem n).mpr ⟨hn, hhandled⟩
      rw [List.mem_singleton, Prod.mk.injEq] at hsame
      exact hsame.1
    · rintro rfl
      exact ((hmem _).mp List.mem_cons_self).2
  inside q n hn hcall := by
    have hfound := Node.enumerates_filter_met_true listingProgram.root
      fun n => n.isCallOf "require"
    have hbelow : ∀ a ∈ (listingProgram.root.met fun _ => true).filter
        fun a => a.2.isCallOf "require", [0, 0] ++ [1, 1] <+: a.1 := by
      decide +kernel
    exact ⟨[1, 1], rfl, hbelow (q, n) ((hfound.mem_iff q n).mpr ⟨hn, hcall⟩)⟩

theorem listingProgram_reads_alike :
    RequiresInFactory listingProgram.root [0, 0] (callAt 0 "define" listingFactory) ∧
    CommonJs.extract (.tree (.script listingProgram)) = .ok ⟨["a", "exports", "a"], none⟩ ∧
    Amd.extract ⟨true⟩ (.tree (.script listingProgram)) = .ok ⟨["a"], none⟩ ∧
    Amd.extract ⟨false⟩ (.tree (.script listingProgram)) = .ok ⟨["a", "c"], none⟩ := by
  have hfactory := requiresInFactory_listingProgram
  have hcommon : CommonJs.dependencies listingProgram = ["a", "exports", "a"] := by
    decide +kernel
  have hlazy : Amd.dependencies ⟨false⟩ listingProgram = ["a", "c"] := by
    decide +kernel
  obtain ⟨names, hnames, heager⟩ := extract_factory_eq_commonJs listingProgram [0, 0] _ hfactory
  have hextract : CommonJs.extract (.tree (.script listingProgram)) =
      .ok ⟨["a", "exports", "a"], none⟩ := by
    rw [CommonJs.extract, fromScript_tree, hcommon]
  rw [hextract] at hnames
  cases hnames
  refine ⟨hfactory, hextract, heager, ?_⟩
  rw [Amd.extract, fromScript_tree, hlazy]

end SourceDeps.Extract

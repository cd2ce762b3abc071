import Mathlib.Data.List.Flatten
import SourceDeps.Proofs.Extract.Outline
import SourceDeps.Proofs.Script.Likeness

namespace SourceDeps.Extract.Amd

open SourceDeps.Script
open SourceDeps.Script.Node (SameRole)

theorem requiredBy_sublist (n : Node) : (requiredBy false n).Sublist (requiredBy true n) := by
  rw [requiredBy, requiredBy]
  cases n.isCallOf "require" with
  | false => exact List.Sublist.refl _
  | true =>
    cases n.callArguments with
    | nil => exact List.Sublist.refl _
    | cons first rest =>
      -- Only the strings of an array are left out.
      cases harray : first.isArray with
      | true => simp [harray]
      | false => simp [harray]

theorem innerRequires_sublist (f : Node) :
    (innerRequires false f).Sublist (innerRequires true f) := by
  apply List.Sublist.flatMap_right
  intro n _
  exact requiredBy_sublist n

theorem ofDefine_sublist (call : Node) : (ofDefine ⟨true⟩ call).Sublist (ofDefine ⟨false⟩ call) := by
  rw [ofDefine, ofDefine]
  cases (unnamed call.callArguments).find? Node.isArray with
  | some list =>
    cases (unnamed call.callArguments).find? Node.isFunctionLike with
    | some f =>
      apply List.Sublist.append_left
      exact List.nil_sublist _
    | none => exact List.Sublist.refl _
  | none =>
    cases (unnamed call.callArguments).find? Node.isFunctionLike with
    | some f => exact innerRequires_sublist f
    | none => exact List.Sublist.refl _

theorem contribution_sublist (n : Node) :
    (contribution ⟨true⟩ n).Sublist (contribution ⟨false⟩ n) := by
  rw [contribution, contribution]
  cases n.isCallOf "define" with
  | true => exact ofDefine_sublist n
  | false =>
    cases driverArguments? n with
    | none => exact List.Sublist.refl _
    | some arguments =>
      apply List.Sublist.append_left
      exact List.nil_sublist _

theorem mem_distinct {name : String} {names : List String} :
    name ∈ distinct names ↔ name ∈ names ∧ name ∉ pseudoModules := by
  rw [distinct_eq, List.mem_eraseDups, List.mem_filter]
  simp

/-- Leaving out what is required lazily only takes names away. The names that are mentioned, with
repetitions and those of the module system, are a subsequence of those mentioned otherwise, and all
that is reported is reported otherwise as well. Where names stand in the report may differ, since
each is reported where it is first mentioned. -/
theorem extract_skipLazyLoaded_sublist (t : Script.Tree) :
    (mentioned ⟨true⟩ t).Sublist (mentioned ⟨false⟩ t) ∧
    ∃ eager all, extract ⟨true⟩ (.tree (.script t)) = .ok ⟨eager, none⟩ ∧
      extract ⟨false⟩ (.tree (.script t)) = .ok ⟨all, none⟩ ∧ eager ⊆ all := by
  have hmentioned : (mentioned ⟨true⟩ t).Sublist (mentioned ⟨false⟩ t) := by
    -- Which calls are handled does not depend on the option, only what each of them gives.
    apply List.Sublist.flatMap_right
    intro n _
    exact contribution_sublist n
  refine ⟨hmentioned, dependencies ⟨true⟩ t, dependencies ⟨false⟩ t, rfl, rfl, ?_⟩
  intro name hname
  obtain ⟨hmem, hpseudo⟩ := mem_distinct.mp hname
  exact mem_distinct.mpr ⟨hmentioned.subset hmem, hpseudo⟩

/-- A call that lists its modules: `define` with an array among its arguments, or `require` with an
array as the first. -/
inductive ListsModules (call : Node) : Prop where
  | define {list : Node} (hcall : call.isCallOf "define" = true)
      (hlist : list ∈ call.callArguments) (harray : list.kind = .array)
  | driver {list : Node} (hcall : call.isCallOf "require" = true)
      (hlist : call.callArguments.head? = some list) (harray : list.kind = .array)

/-- Arguments that are the same, wherever they stand in a text, or that are both functions. -/
def SameOrFunctions (a b : Node) : Prop :=
  a.unplaced = b.unplaced ∨ a.isFunctionLike = true ∧ b.isFunctionLike = true

/-- Parts of two calls that are the same but for functions among the arguments. -/
inductive SameButFunctions (c d : Node) : Prop where
  | same (hsame : c.unplaced = d.unplaced)
  | arguments (hfield : c.field = some .arguments) (hrole : SameRole c d)
      (hchildren : List.Forall₂ SameOrFunctions c.children d.children)

/-- Two trees that are the same, wherever their nodes stand in a text, but for functions among the
arguments of outermost AMD calls that list their modules. A template above such a call has the
function in its text as well, so that there the texts may differ. -/
inductive DiffersInLazyCode : Node → Node → Prop where
  | same {m n : Node} (hsame : m.unplaced = n.unplaced) : DiffersInLazyCode m n
  | descend {m n : Node} (hcall : ¬IsAmdCall m) (hrole : SameRole m n)
      (hchildren : List.Forall₂ DiffersInLazyCode m.children n.children) : DiffersInLazyCode m n
  | call {m n : Node} (hlists : ListsModules m) (hrole : SameRole m n)
      (hchildren : List.Forall₂ SameButFunctions m.children n.children) : DiffersInLazyCode m n

theorem sameRole_of_unplaced_eq {m n : Node} (h : m.unplaced = n.unplaced) : SameRole m n := by
  rw [Node.unplaced_eq, Node.unplaced_eq, Node.mk.injEq] at h
  exact ⟨h.1, h.2.1, fun _ => h.2.2.2.1⟩

theorem children_of_unplaced_eq {m n : Node} (h : m.unplaced = n.unplaced) :
    List.Forall₂ (fun c d => c.unplaced = d.unplaced) m.children n.children := by
  have hchildren : m.children.map Node.unplaced = n.children.map Node.unplaced := by
    rw [← Node.children_unplaced, h, Node.children_unplaced]
  rw [← List.forall₂_eq_eq_eq, List.forall₂_map_left_iff, List.forall₂_map_right_iff] at hchildren
  exact hchildren

theorem outline_eq_of_unplaced_eq {m n : Node} (h : m.unplaced = n.unplaced) :
    m.outline = n.outline := by
  rw [← Node.outline_unplaced m, h, Node.outline_unplaced]

theorem SameOrFunctions.isArray_eq {a b : Node} (h : SameOrFunctions a b) :
    a.isArray = b.isArray := by
  rcases h with hsame | ⟨ha, hb⟩
  · exact (sameRole_of_unplaced_eq hsame).isArray_eq
  · rw [Node.isArray_of_isFunctionLike ha, Node.isArray_of_isFunctionLike hb]

theorem SameButFunctions.sameRole {c d : Node} (h : SameButFunctions c d) : SameRole c d := by
  cases h with
  | same hsame => exact sameRole_of_unplaced_eq hsame
  | arguments _ hrole _ => exact hrole

theorem DiffersInLazyCode.sameRole {m n : Node} (h : DiffersInLazyCode m n) : SameRole m n := by
  cases h with
  | same hsame => exact sameRole_of_unplaced_eq hsame
  | descend _ hrole _ => exact hrole
  | call _ hrole _ => exact hrole

theorem DiffersInLazyCode.children_sameRole {m n : Node} (h : DiffersInLazyCode m n) :
    List.Forall₂ SameRole m.children n.children := by
  cases h with
  | same hsame => exact (children_of_unplaced_eq hsame).imp fun _ _ => sameRole_of_unplaced_eq
  | descend _ _ hchildren => exact hchildren.imp fun _ _ => DiffersInLazyCode.sameRole
  | call _ _ hchildren => exact hchildren.imp fun _ _ => SameButFunctions.sameRole

theorem SameOrFunctions.isArgument_eq {a b : Node} (h : SameOrFunctions a b) :
    a.isArgument = b.isArgument := by
  rcases h with hsame | ⟨ha, hb⟩
  · exact (sameRole_of_unplaced_eq hsame).isArgument_eq
  · rw [Node.isArgument_of_isFunctionLike ha, Node.isArgument_of_isFunctionLike hb]

/-- Calls have related arguments if their parts are such that what is in the argument lists is
related. -/
theorem callArguments_rel {P R : Node → Node → Prop} {m n : Node}
    (hchildren : List.Forall₂ P m.children n.children)
    (hfield : ∀ c d, P c d → c.field = d.field)
    (hlist : ∀ c d, P c d → c.field = some .arguments → List.Forall₂ R c.children d.children)
    (hargument : ∀ a b, R a b → a.isArgument = b.isArgument) :
    List.Forall₂ R m.callArguments n.callArguments := by
  have hargs : Option.Rel P (m.child? .arguments) (n.child? .arguments) := by
    apply rel_find? hchildren
    intro c d hcd
    rw [hfield c d hcd]
  have hfound (c : Node) (hc : m.child? .arguments = some c) : c.field = some .arguments := by
    simpa using List.find?_some hc
  rw [Node.callArguments_eq, Node.callArguments_eq]
  generalize m.child? .arguments = found at hargs hfound
  generalize n.child? .arguments = found' at hargs
  cases hargs with
  | none => exact .nil
  | @some c d hcd =>
    refine List.rel_filter (fun a b hab => ?_) (hlist c d hcd (hfound c rfl))
    exact Bool.eq_iff_iff.mp (hargument a b hab)

theorem isHandled_eq {m n : Node} (hrole : SameRole m n)
    (hchildren : List.Forall₂ SameRole m.children n.children)
    (hargs : List.Forall₂ (fun a b : Node => a.isArray = b.isArray) m.callArguments
      n.callArguments) : isHandled m = isHandled n := by
  have hcallee : Option.Rel SameRole (m.child? .function) (n.child? .function) := by
    apply rel_find? hchildren
    intro c d hcd
    rw [hcd.field]
  have hcall (name : String) : m.isCallOf name = n.isCallOf name :=
    Node.isCallOf_eq (fun _ _ hcd => hcd) hrole.kind hcallee name
  have hdriver : (driverArguments? m).isSome = (driverArguments? n).isSome := by
    rw [driverArguments?, driverArguments?, hcall]
    cases n.isCallOf "require" with
    | false => rfl
    | true =>
      generalize m.callArguments = args at hargs
      generalize n.callArguments = args' at hargs
      cases hargs with
      | nil => rfl
      | @cons first first' _ _ hfirst _ =>
        simp only [hfirst]
        cases first'.isArray <;> rfl
  rw [isHandled, isHandled, hdriver, hcall]

theorem ListsModules.isAmdCall {call : Node} (h : ListsModules call) : IsAmdCall call := by
  cases h with
  | define hcall _ _ => exact .inl hcall
  | driver hcall hlist harray => exact .inr ⟨hcall, _, hlist, harray⟩

theorem ListsModules.exists_list {call : Node} (h : ListsModules call) :
    ∃ list, call.callArguments.find? Node.isArray = some list := by
  have hmem : ∃ list ∈ call.callArguments, list.kind = .array := by
    cases h with
    | define _ hlist harray => exact ⟨_, hlist, harray⟩
    | driver _ hlist harray => exact ⟨_, List.mem_of_head? hlist, harray⟩
  obtain ⟨list, hlist, harray⟩ := hmem
  apply Option.isSome_iff_exists.mp
  rw [List.find?_isSome]
  exact ⟨list, hlist, by simp [Node.isArray, harray]⟩

/-- Of an AMD call with an array among its arguments only the array counts, if what functions
require is left out. -/
theorem contribution_eager {call list : Node} (hcall : isHandled call = true)
    (hlist : call.callArguments.find? Node.isArray = some list) :
    contribution ⟨true⟩ call = list.arrayStrings := by
  rw [contribution]
  cases hdefine : call.isCallOf "define" with
  | true =>
    simp only [↓reduceIte, ofDefine, find?_isArray_unnamed, hlist]
    cases (unnamed call.callArguments).find? Node.isFunctionLike <;> simp
  | false =>
    -- The call is handled as one of `require`, whose first argument is the array.
    rw [isHandled, hdefine, Bool.false_or, Option.isSome_iff_exists] at hcall
    obtain ⟨⟨first, rest⟩, hdriver⟩ := hcall
    have hfirst : first = list := by
      rw [driverArguments?, Option.ite_none_right_eq_some] at hdriver
      obtain ⟨-, hdriver⟩ := hdriver
      cases hargs : call.callArguments with
      | nil => simp [hargs] at hdriver
      | cons first' rest' =>
        simp only [hargs, Option.ite_none_right_eq_some] at hdriver
        obtain ⟨harray, hsame⟩ := hdriver
        cases hsame
        rw [hargs, List.find?_cons_of_pos harray] at hlist
        exact Option.some.inj hlist
    simp [hdriver, ofDriver, hfirst]

theorem SameButFunctions.arguments_rel {c d : Node} (h : SameButFunctions c d) :
    List.Forall₂ SameOrFunctions c.children d.children := by
  cases h with
  | same hsame => exact (children_of_unplaced_eq hsame).imp fun _ _ => .inl
  | arguments _ _ hchildren => exact hchildren

/-- What a call that lists its modules gives does not depend on the functions among its
arguments. -/
theorem contribution_eq_of_lists {m n : Node} (hlists : ListsModules m) (hrole : SameRole m n)
    (hchildren : List.Forall₂ SameButFunctions m.children n.children) :
    isHandled m = isHandled n ∧ contribution ⟨true⟩ m = contribution ⟨true⟩ n := by
  have hargs : List.Forall₂ SameOrFunctions m.callArguments n.callArguments := by
    apply callArguments_rel hchildren
    · exact fun _ _ hcd => hcd.sameRole.field
    · exact fun _ _ hcd _ => hcd.arguments_rel
    · exact fun _ _ hab => hab.isArgument_eq
  have hhandled : isHandled m = isHandled n :=
    isHandled_eq hrole (hchildren.imp fun _ _ => SameButFunctions.sameRole)
      (hargs.imp fun _ _ => SameOrFunctions.isArray_eq)
  have hm : isHandled m = true := isHandled_iff.mpr hlists.isAmdCall
  obtain ⟨list, hlist⟩ := hlists.exists_list
  have hfound := rel_find? hargs fun _ _ => SameOrFunctions.isArray_eq
  rw [hlist] at hfound
  generalize hn : n.callArguments.find? Node.isArray = found at hfound
  cases hfound with
  | @some _ list' hsame =>
    have hstrings : list.arrayStrings = list'.arrayStrings := by
      rcases hsame with hsame | ⟨hfunction, -⟩
      · rw [← Node.arrayStrings_outline, outline_eq_of_unplaced_eq hsame,
          Node.arrayStrings_outline]
      · have harray := List.find?_some hlist
        rw [Node.isArray_of_isFunctionLike hfunction] at harray
        cases harray
    refine ⟨hhandled, ?_⟩
    rw [contribution_eager hm hlist, contribution_eager (hhandled ▸ hm) hn, hstrings]

/-- Whether the walk goes below a node, and what the node gives, is the same in both trees. -/
theorem DiffersInLazyCode.gives_eq {m n : Node} (h : DiffersInLazyCode m n) :
    isHandled m = isHandled n ∧ contribution ⟨true⟩ m = contribution ⟨true⟩ n := by
  cases h with
  | same hsame =>
    have hreads := readsOutline ⟨true⟩
    have houtline := outline_eq_of_unplaced_eq hsame
    constructor
    · rw [← isHandled_outline, houtline, isHandled_outline]
    · rw [← hreads.give_outline, houtline, hreads.give_outline]
  | descend hcall hrole hchildren =>
    have hargs : List.Forall₂ SameRole m.callArguments n.callArguments := by
      apply callArguments_rel hchildren
      · exact fun _ _ hcd => hcd.sameRole.field
      · exact fun _ _ hcd _ => hcd.children_sameRole
      · exact fun _ _ hab => hab.isArgument_eq
    have hhandled : isHandled m = isHandled n := by
      apply isHandled_eq hrole
      · exact hchildren.imp fun _ _ => DiffersInLazyCode.sameRole
      · exact hargs.imp fun _ _ => SameRole.isArray_eq
    -- Neither node gives anything itself.
    have hm : isHandled m = false := eq_false_of_ne_true fun h => hcall (isHandled_iff.mp h)
    refine ⟨hhandled, ?_⟩
    rw [contribution_eq_nil _ hm, contribution_eq_nil _ (hhandled ▸ hm)]
  | call hlists hrole hchildren => exact contribution_eq_of_lists hlists hrole hchildren

theorem simulates_differsInLazyCode : Node.Simulates DiffersInLazyCode Eq
    (fun n => !isHandled n) (contribution ⟨true⟩) where
  nil := rfl
  append h h' := by rw [h, h']
  descend_eq h := by rw [h.gives_eq.1]
  give_rel h := h.gives_eq.2
  children_rel {m n} h hdescend := by
    refine ⟨fun _ => true, ?_, fun _ _ hc => by cases hc⟩
    rw [List.filter_true]
    cases h with
    | same hsame => exact (children_of_unplaced_eq hsame).imp fun _ _ => .same
    | descend _ _ hchildren => exact hchildren
    | call hlists _ _ =>
      -- The walk does not go below a call that is handled.
      rw [isHandled_iff.mpr hlists.isAmdCall] at hdescend
      cases hdescend

/-- Code that runs later has no influence if it is left out: scripts that differ only in functions
among the arguments of outermost AMD calls that list their modules give the same. -/
theorem extract_ignores_lazy_code (t u : Script.Tree) (h : DiffersInLazyCode t.root u.root) :
    extract ⟨true⟩ (.tree (.script t)) = extract ⟨true⟩ (.tree (.script u)) := by
  have hmentioned : mentioned ⟨true⟩ t = mentioned ⟨true⟩ u :=
    simulates_differsInLazyCode.flatMap_walked h
  rw [extract, extract, fromScript_tree, fromScript_tree, dependencies, dependencies, hmentioned]

def requireAt (byte : Nat) (letter : String) : Node :=
  .mk .callExpression none ⟨byte, byte + 12⟩ "" false false [
    .mk .identifier (some .function) ⟨byte, byte + 7⟩ "require" false false [],
    .mk .arguments (some .arguments) ⟨byte + 7, byte + 12⟩ "" false false [
      .mk (.mark "(") none ⟨byte + 7, byte + 8⟩ "(" false false [],
      literalAt (byte + 8) letter,
      .mk (.mark ")") none ⟨byte + 11, byte + 12⟩ ")" false false []]]

def parametersAt (byte : Nat) : Node :=
  .mk (.other "formal_parameters") none ⟨byte, byte + 2⟩ "" false false [
    .mk (.mark "(") none ⟨byte, byte + 1⟩ "(" false false [],
    .mk (.mark ")") none ⟨byte + 1, byte + 2⟩ ")" false false []]

/-- The function `function(){require('b')}` at the byte 16 of a text. -/
def functionFactory : Node :=
  .mk .functionExpression none ⟨16, 40⟩ "" false false [
    .mk (.mark "function") none ⟨16, 24⟩ "function" false false [],
    parametersAt 24,
    .mk (.other "statement_block") none ⟨26, 40⟩ "" false false [
      .mk (.mark "\x7b") none ⟨26, 27⟩ "\x7b" false false [],
      .mk .expressionStatement none ⟨27, 39⟩ "" false false [requireAt 27 "b"],
      .mk (.mark "\x7d") none ⟨39, 40⟩ "\x7d" false false []]]

/-- The function `()=>require('c')` at the byte 16 of a text. -/
def arrowFactory : Node :=
  .mk .arrowFunction none ⟨16, 32⟩ "" false false [
    parametersAt 16,
    .mk (.mark "=>") none ⟨18, 20⟩ "=>" false false [],
    requireAt 20 "c"]

/-- The array `['a']` at the byte 10 of a text. -/
def listOfOne : Node :=
  .mk .array none ⟨10, 15⟩ "" false false [
    .mk (.mark "[") none ⟨10, 11⟩ "[" false false [],
    literalAt 11 "a",
    .mk (.mark "]") none ⟨14, 15⟩ "]" false false []]

def listAndFactory (factory : Node) : Node :=
  .mk .arguments (some .arguments) ⟨9, factory.span.stop + 1⟩ "" false false [
    .mk (.mark "(") none ⟨9, 10⟩ "(" false false [],
    listOfOne,
    .mk (.mark ",") none ⟨15, 16⟩ "," false false [],
    factory,
    .mk (.mark ")") none ⟨factory.span.stop, factory.span.stop + 1⟩ ")" false false []]

/-- The call `define(['a'],...)` at the byte 3 of a text, with a given factory. -/
def defineCall (factory : Node) : Node :=
  .mk .callExpression none ⟨3, factory.span.stop + 1⟩ "" false false [
    .mk .identifier (some .function) ⟨3, 9⟩ "define" false false [],
    listAndFactory factory]

def substitutedDefine (factory : Node) : Node :=
  .mk .templateSubstitution none ⟨1, factory.span.stop + 2⟩ "" false false [
    .mk (.mark "$\x7b") none ⟨1, 3⟩ "$\x7b" false false [],
    defineCall factory,
    .mk (.mark "\x7d") none ⟨factory.span.stop + 1, factory.span.stop + 2⟩ "\x7d" false false []]

/-- The template that has such a call as its only substitution. -/
def defineTemplate (factory : Node) (text : String) : Node :=
  .mk .templateString none ⟨0, factory.span.stop + 3⟩ text false false [
    .mk (.mark "\x60") none ⟨0, 1⟩ "\x60" false false [],
    substitutedDefine factory,
    .mk (.mark "\x60") none ⟨factory.span.stop + 2, factory.span.stop + 3⟩ "\x60" false false []]

/-- The program of a text that is such a template with a semicolon. -/
def defineProgram (factory : Node) (text : String) : Script.Tree where
  source := text ++ ";"
  root := .mk .program none ⟨0, factory.span.stop + 4⟩ "" false false [
    .mk .expressionStatement none ⟨0, factory.span.stop + 4⟩ "" false false [
      defineTemplate factory text,
      .mk (.mark ";") none ⟨factory.span.stop + 3, factory.span.stop + 4⟩ ";" false false []]]

def functionText : String := "\x60$\x7bdefine(['a'],function()\x7brequire('b')\x7d)\x7d\x60"

def arrowText : String := "\x60$\x7bdefine(['a'],()=>require('c'))\x7d\x60"

def functionProgram : Script.Tree := defineProgram functionFactory functionText

def arrowProgram : Script.Tree := defineProgram arrowFactory arrowText

theorem not_isAmdCall {n : Node} (h : n.kind ≠ .callExpression) : ¬IsAmdCall n := by
  intro hcall
  have hhandled := isHandled_iff.mpr hcall
  rw [isHandled_eq_false h] at hhandled
  cases hhandled

theorem differsInLazyCode_factories :
    DiffersInLazyCode functionProgram.root arrowProgram.root := by
  have hlists : ListsModules (defineCall functionFactory) := by
    have hargs : (defineCall functionFactory).callArguments = [listOfOne, functionFactory] := rfl
    have hmem : listOfOne ∈ (defineCall functionFactory).callArguments := by
      rw [hargs]
      exact List.mem_cons_self
    exact .define (by decide) hmem rfl
  -- In the argument lists only the factories differ, both of them functions.
  have harguments : SameButFunctions (listAndFactory functionFactory)
      (listAndFactory arrowFactory) := by
    refine .arguments rfl ⟨rfl, rfl, fun _ => rfl⟩ ?_
    have hfactory : SameOrFunctions functionFactory arrowFactory := .inr ⟨rfl, rfl⟩
    exact .cons (.inl rfl) (.cons (.inl rfl) (.cons (.inl rfl) (.cons hfactory
      (.cons (.inl rfl) .nil))))
  have hcall : DiffersInLazyCode (defineCall functionFactory) (defineCall arrowFactory) :=
    .call hlists ⟨rfl, rfl, fun _ => rfl⟩ (.cons (.same rfl) (.cons harguments .nil))
  have hsubstitution : DiffersInLazyCode (substitutedDefine functionFactory)
      (substitutedDefine arrowFactory) := by
    refine .descend (not_isAmdCall (by decide)) ⟨rfl, rfl, fun _ => rfl⟩ ?_
    exact .cons (.same rfl) (.cons hcall (.cons (.same rfl) .nil))
  -- The templates differ in their texts, which do not count since they are no names.
  have htemplate : DiffersInLazyCode (defineTemplate functionFactory functionText)
      (defineTemplate arrowFactory arrowText) := by
    refine .descend (not_isAmdCall (by decide)) ⟨rfl, rfl, fun h => by cases h⟩ ?_
    exact .cons (.same rfl) (.cons hsubstitution (.cons (.same rfl) .nil))
  refine .descend (not_isAmdCall (by decide)) ⟨rfl, rfl, fun _ => rfl⟩ (.cons ?_ .nil)
  refine .descend (not_isAmdCall (by decide)) ⟨rfl, rfl, fun _ => rfl⟩ ?_
  exact .cons htemplate (.cons (.same rfl) .nil)

theorem factories_ignored : DiffersInLazyCode functionProgram.root arrowProgram.root ∧
    extract ⟨true⟩ (.tree (.script functionProgram)) = .ok ⟨["a"], none⟩ ∧
    extract ⟨true⟩ (.tree (.script arrowProgram)) = .ok ⟨["a"], none⟩ ∧
    extract ⟨false⟩ (.tree (.script functionProgram)) = .ok ⟨["a", "b"], none⟩ ∧
    extract ⟨false⟩ (.tree (.script arrowProgram)) = .ok ⟨["a", "c"], none⟩ := by
  have hdiffers := differsInLazyCode_factories
  have heager : dependencies ⟨true⟩ functionProgram = ["a"] := by
    decide +kernel
  have hfunction : dependencies ⟨false⟩ functionProgram = ["a", "b"] := by
    decide +kernel
  have harrow : dependencies ⟨false⟩ arrowProgram = ["a", "c"] := by
    decide +kernel
  have hsame := extract_ignores_lazy_code functionProgram arrowProgram hdiffers
  have hextract : extract ⟨true⟩ (.tree (.script functionProgram)) = .ok ⟨["a"], none⟩ := by
    rw [extract, fromScript_tree, heager]
  refine ⟨hdiffers, hextract, hsame ▸ hextract, ?_, ?_⟩
  · rw [extract, fromScript_tree, hfunction]
  · rw [extract, fromScript_tree, harrow]

end SourceDeps.Extract.Amd

import SourceDeps.Extract.Es6
import SourceDeps.Proofs.Detect
import SourceDeps.Proofs.Extract.Outermost

namespace SourceDeps.Extract

open SourceDeps.Script

theorem fromScript_tree (d : Dialect) (find : Script.Tree → List String) (t : Script.Tree) :
    fromScript d find (.tree (.script t)) = .ok ⟨find t, none⟩ := rfl

theorem kind_ne_call {n : Node} (h : n.kind = .comment ∨ n.kind = .program) :
    n.kind ≠ .callExpression := by
  rcases h with h | h <;> simp [h]

theorem CommonJs.readsOutline :
    Node.ReadsOutline (fun _ => true) fun n => (CommonJs.required? n).toList where
  descend_outline _ := rfl
  descend_program _ _ := rfl
  give_outline n := by
    rw [CommonJs.required?, CommonJs.required?, Node.isCallOf_outline, Node.firstString?_outline]
  give_eq_nil n h := by
    rw [CommonJs.required?, Node.isCallOf_eq_false (kind_ne_call h)]
    rfl

theorem CommonJs.dependencies_eq (t : Script.Tree) : CommonJs.dependencies t =
    (t.root.walked fun _ => true).flatMap fun n => (CommonJs.required? n).toList :=
  List.filterMap_eq_flatMap_toList _ _

theorem Es6.statementSource?_outline (n : Node) :
    Es6.statementSource? n.outline = Es6.statementSource? n := by
  rw [Es6.statementSource?, Es6.statementSource?, Node.kind_outline, Node.child?_outline]
  cases n.child? .source with
  | none => rfl
  | some source =>
    rw [Option.map_some, Option.bind_some, Option.bind_some, Node.stringValue?_outline]

theorem Es6.readsOutline (options : Es6Options) :
    Node.ReadsOutline (fun _ => true) fun n => (Es6.reference? options n).toList where
  descend_outline _ := rfl
  descend_program _ _ := rfl
  give_outline n := by
    rw [Es6.reference?, Es6.reference?, Es6.statementSource?_outline, Es6.loaded?, Es6.loaded?,
      Node.isDynamicImport_outline, Node.isCallOf_outline, Node.firstString?_outline]
  give_eq_nil n h := by
    have hstatement : Es6.statementSource? n = none := by
      rcases h with h | h <;> simp [Es6.statementSource?, h]
    rw [Es6.reference?, hstatement, Es6.loaded?, Node.isCallOf_eq_false (kind_ne_call h),
      Node.isDynamicImport_eq_false (kind_ne_call h), Bool.false_and, Bool.and_false]
    rfl

theorem Es6.dependencies_eq (options : Es6Options) (t : Script.Tree) :
    Es6.dependencies options t =
      (t.root.walked fun _ => true).flatMap fun n => (Es6.reference? options n).toList :=
  List.filterMap_eq_flatMap_toList _ _

namespace Amd

theorem requiredBy_readsOutline (arrays : Bool) :
    Node.ReadsOutline (fun _ => true) (requiredBy arrays) where
  descend_outline _ := rfl
  descend_program _ _ := rfl
  give_outline n := by
    rw [requiredBy, requiredBy, Node.isCallOf_outline, Node.callArguments_outline]
    cases n.callArguments with
    | nil => rfl
    | cons first rest => simp [Node.arrayStrings_outline, Node.stringValue?_outline]
  give_eq_nil n h := by
    rw [requiredBy, Node.isCallOf_eq_false (kind_ne_call h)]
    rfl

theorem innerRequires_outline (arrays : Bool) (n : Node) :
    innerRequires arrays n.outline = innerRequires arrays n :=
  (requiredBy_readsOutline arrays).flatMap_outline n

theorem unnamed_outline (args : List Node) :
    unnamed (args.map Node.outline) = (unnamed args).map Node.outline := by
  -- Only what stands in front of further arguments can be a name, so one argument is a case apart.
  match args with
  | [] => rfl
  | [first] => rfl
  | first :: second :: rest =>
    simp only [List.map_cons, unnamed, Node.stringValue?_outline]
    split <;> rfl

theorem find?_map_outline {test : Node → Bool} (h : ∀ n : Node, test n.outline = test n)
    (ns : List Node) : (ns.map Node.outline).find? test = (ns.find? test).map Node.outline := by
  have htest : test ∘ Node.outline = test := funext h
  rw [List.find?_map, htest]

theorem ofDefine_outline (options : AmdOptions) (n : Node) :
    ofDefine options n.outline = ofDefine options n := by
  rw [ofDefine, ofDefine, Node.callArguments_outline, unnamed_outline]
  simp only [find?_map_outline Node.isArray_outline, find?_map_outline Node.isFunctionLike_outline]
  -- What is read depends on which there are of a list and a function.
  cases (unnamed n.callArguments).find? Node.isArray <;>
    cases (unnamed n.callArguments).find? Node.isFunctionLike <;>
    simp [Node.arrayStrings_outline, innerRequires_outline]

theorem driverArguments?_outline (n : Node) : driverArguments? n.outline =
    (driverArguments? n).map fun (list, rest) => (list.outline, rest.map Node.outline) := by
  rw [driverArguments?, driverArguments?, Node.isCallOf_outline, Node.callArguments_outline]
  cases n.isCallOf "require" with
  | false => rfl
  | true =>
    cases n.callArguments with
    | nil => rfl
    | cons first rest => cases h : first.isArray <;> simp [h]

theorem ofDriver_outline (options : AmdOptions) (list : Node) (rest : List Node) :
    ofDriver options list.outline (rest.map Node.outline) = ofDriver options list rest := by
  have hfunction : Node.isFunctionLike ∘ Node.outline = Node.isFunctionLike :=
    funext Node.isFunctionLike_outline
  have hinner : (fun n : Node => innerRequires true n.outline) = innerRequires true :=
    funext (innerRequires_outline true)
  rw [ofDriver, ofDriver, Node.arrayStrings_outline, List.filter_map, hfunction, List.flatMap_map,
    hinner]

theorem isHandled_outline (n : Node) : isHandled n.outline = isHandled n := by
  rw [isHandled, isHandled, Node.isCallOf_outline, driverArguments?_outline, Option.isSome_map]

theorem isHandled_eq_false {n : Node} (h : n.kind ≠ .callExpression) : isHandled n = false := by
  rw [isHandled, driverArguments?, Node.isCallOf_eq_false h, Node.isCallOf_eq_false h]
  rfl

theorem readsOutline (options : AmdOptions) :
    Node.ReadsOutline (fun n => !isHandled n) (contribution options) where
  descend_outline n := by rw [isHandled_outline]
  descend_program n h := by rw [isHandled_eq_false (kind_ne_call (.inr h)), Bool.not_false]
  give_outline n := by
    rw [contribution, contribution, Node.isCallOf_outline, ofDefine_outline,
      driverArguments?_outline]
    cases driverArguments? n with
    | none => rfl
    | some arguments => simp only [Option.map_some, ofDriver_outline]
  give_eq_nil n h := contribution_eq_nil options (isHandled_eq_false (kind_ne_call h))

theorem eraseDups_filter {α : Type} [BEq α] [LawfulBEq α] (test : α → Bool) (as : List α) :
    (as.filter test).eraseDups = as.eraseDups.filter test := by
  -- Recursion on what is left without the first element and those equal to it: the tail itself is
  -- no use, since what occurs once in it may have occurred before.
  match as with
  | [] => rfl
  | a :: as =>
    have hlength := List.length_filter_le (!· == a) as
    have ih := eraseDups_filter test (as.filter (!· == a))
    rw [List.eraseDups_cons, List.filter_cons, List.filter_cons, ← ih]
    cases ha : test a with
    | true =>
      simp only [↓reduceIte, List.eraseDups_cons, List.filter_filter, Bool.and_comm]
    | false =>
      -- What is kept differs from the element that is not.
      have hne : (as.filter (!· == a)).filter test = as.filter test := by
        rw [List.filter_filter]
        refine List.filter_congr fun b _ => ?_
        cases hb : test b with
        | false => rfl
        | true =>
          have hba : b ≠ a := by
            rintro rfl
            rw [ha] at hb
            cases hb
          simp [hba]
      rw [hne]
      rfl
termination_by as.length

/-- Of names put together, those of the second list that the first has already do not count. -/
theorem distinct_append (as bs : List String) :
    distinct (as ++ bs) = distinct as ++ (distinct bs).filter (· ∉ distinct as) := by
  have hfound : distinct (as ++ bs) = distinct as ++ (bs.filter fun name =>
      !pseudoModules.contains name && !(distinct as).contains name).eraseDups := by
    rw [distinct, List.foldl_append, foldl_distinct, distinct]
  rw [hfound, distinct_eq bs, ← eraseDups_filter, List.filter_filter]
  congr 2
  refine List.filter_congr fun name _ => ?_
  simp [Bool.and_comm]

end Amd

/-- Extracting from a tree succeeds, and combines what extracting from two other trees gives. -/
def Combines (extract : Source → Except Failure Extracted)
    (combine : List String → List String → List String) (P Q R : Script.Tree) : Prop :=
  ∃ p q, extract (.tree (.script P)) = .ok ⟨p, none⟩ ∧ extract (.tree (.script Q)) = .ok ⟨q, none⟩ ∧
    extract (.tree (.script R)) = .ok ⟨combine p q, none⟩

theorem combines_of_eq (d : Dialect) {find : Script.Tree → List String}
    {combine : List String → List String → List String} {P Q R : Script.Tree}
    (h : find R = combine (find P) (find Q)) : Combines (fromScript d find) combine P Q R := by
  refine ⟨find P, find Q, rfl, rfl, ?_⟩
  rw [fromScript_tree, h]

/-- A program whose statements are those of one program and then those of another gives what the
first gives and then what the second gives. Only AMD leaves out of the second what the first has
given already. -/
theorem extract_statements_append (P Q R : Script.Tree) (hP : P.IsProgram) (hQ : Q.IsProgram)
    (hR : R.IsProgram) (h : R.statements = P.statements ++ Q.statements) :
    Combines CommonJs.extract (· ++ ·) P Q R ∧
    (∀ options, Combines (Es6.extract options) (· ++ ·) P Q R) ∧
    ∀ options, Combines (Amd.extract options) (fun p q => p ++ q.filter (· ∉ p)) P Q R := by
  have happend {descend : Node → Bool} {give : Node → List String}
      (hreads : Node.ReadsOutline descend give) : (R.root.walked descend).flatMap give =
        (P.root.walked descend).flatMap give ++ (Q.root.walked descend).flatMap give := by
    rw [hreads.flatMap_statements hR, h, List.flatMap_append, hreads.flatMap_statements hP,
      hreads.flatMap_statements hQ]
  refine ⟨combines_of_eq .commonJs ?_, fun options => combines_of_eq .es6 ?_,
    fun options => combines_of_eq .amd ?_⟩
  · simp only [CommonJs.dependencies_eq, happend CommonJs.readsOutline]
  · simp only [Es6.dependencies_eq, happend (Es6.readsOutline options)]
  · have hmentioned : Amd.mentioned options R =
        Amd.mentioned options P ++ Amd.mentioned options Q :=
      happend (Amd.readsOutline options)
    rw [Amd.dependencies, hmentioned, Amd.distinct_append]
    rfl

/-- A literal of one letter at a byte of a text. -/
def literalAt (byte : Nat) (letter : String) : Node :=
  .mk .string none ⟨byte, byte + 3⟩ ("'" ++ letter ++ "'") false false [
    .mk (.mark "'") none ⟨byte, byte + 1⟩ "'" false false [],
    .mk (.other "string_fragment") none ⟨byte + 1, byte + 2⟩ letter false false [],
    .mk (.mark "'") none ⟨byte + 2, byte + 3⟩ "'" false false []]

/-- The statement `require([x,y]);` at a byte of a text, with two literals of three bytes. -/
def pairStatement (byte : Nat) (x y : String) : Node :=
  .mk .expressionStatement none ⟨byte, byte + 19⟩ "" false false [
    .mk .callExpression none ⟨byte, byte + 18⟩ "" false false [
      .mk .identifier (some .function) ⟨byte, byte + 7⟩ "require" false false [],
      .mk .arguments (some .arguments) ⟨byte + 7, byte + 18⟩ "" false false [
        .mk (.mark "(") none ⟨byte + 7, byte + 8⟩ "(" false false [],
        .mk .array none ⟨byte + 8, byte + 17⟩ "" false false [
          .mk (.mark "[") none ⟨byte + 8, byte + 9⟩ "[" false false [],
          .mk .string none ⟨byte + 9, byte + 12⟩ x false false [],
          .mk (.mark ",") none ⟨byte + 12, byte + 13⟩ "," false false [],
          .mk .string none ⟨byte + 13, byte + 16⟩ y false false [],
          .mk (.mark "]") none ⟨byte + 16, byte + 17⟩ "]" false false []],
        .mk (.mark ")") none ⟨byte + 17, byte + 18⟩ ")" false false []]],
    .mk (.mark ";") none ⟨byte + 18, byte + 19⟩ ";" false false []]

def firstProgram : Script.Tree :=
  ⟨.mk .program none ⟨0, 19⟩ "" false false [pairStatement 0 "'a'" "'b'"], "require(['a','b']);"⟩

def secondProgram : Script.Tree :=
  ⟨.mk .program none ⟨0, 19⟩ "" false false [pairStatement 0 "'b'" "'c'"], "require(['b','c']);"⟩

def joinedProgram : Script.Tree :=
  ⟨.mk .program none ⟨0, 38⟩ "" false false
    [pairStatement 0 "'a'" "'b'", pairStatement 19 "'b'" "'c'"],
    "require(['a','b']);require(['b','c']);"⟩

theorem joinedProgram_gives : (firstProgram.IsProgram ∧ secondProgram.IsProgram ∧
      joinedProgram.IsProgram ∧
      joinedProgram.statements = firstProgram.statements ++ secondProgram.statements) ∧
    Amd.extract {} (.tree (.script firstProgram)) = .ok ⟨["a", "b"], none⟩ ∧
    Amd.extract {} (.tree (.script secondProgram)) = .ok ⟨["b", "c"], none⟩ ∧
    Amd.extract {} (.tree (.script joinedProgram)) = .ok ⟨["a", "b", "c"], none⟩ := by
  have hfirst : Amd.dependencies {} firstProgram = ["a", "b"] := by
    decide +kernel
  have hsecond : Amd.dependencies {} secondProgram = ["b", "c"] := by
    decide +kernel
  obtain ⟨p, q, hp, hq, hr⟩ :=
    (extract_statements_append firstProgram secondProgram joinedProgram rfl rfl rfl rfl).2.2 {}
  rw [Amd.extract, fromScript_tree, hfirst] at hp
  rw [Amd.extract, fromScript_tree, hsecond] at hq
  cases hp
  cases hq
  refine ⟨⟨rfl, rfl, rfl, rfl⟩, ?_, ?_, hr⟩
  · rw [Amd.extract, fromScript_tree, hfirst]
  · rw [Amd.extract, fromScript_tree, hsecond]

/-- Comments do not count. Without its comments, which are parts of no node and have nothing below
them, a script is found to be of the same dialect, and each extractor finds the same in it. -/
theorem extract_uncommented (t : Script.Tree)
    (h : ∀ m ∈ t.root.preorder, m.kind = .comment → m.field = none ∧ m.children = []) :
    Detect.ofScript t.uncommented = Detect.ofScript t ∧
    CommonJs.extract (.tree (.script t.uncommented)) = CommonJs.extract (.tree (.script t)) ∧
    (∀ options, Amd.extract options (.tree (.script t.uncommented)) =
      Amd.extract options (.tree (.script t))) ∧
    ∀ options, Es6.extract options (.tree (.script t.uncommented)) =
      Es6.extract options (.tree (.script t)) := by
  have houtline : t.uncommented.root.outline = t.root.outline := Node.outline_without_isComment h
  have hsame {descend : Node → Bool} {give : Node → List String}
      (hreads : Node.ReadsOutline descend give) : (t.uncommented.root.walked descend).flatMap give =
        (t.root.walked descend).flatMap give :=
    hreads.flatMap_eq_of_outline_eq houtline
  refine ⟨?_, ?_, fun options => ?_, fun options => ?_⟩
  · rw [Detect.ofScript, Detect.signals_eq_of_outline_eq houtline, Detect.ofScript]
  · have hdeps : CommonJs.dependencies t.uncommented = CommonJs.dependencies t := by
      simp only [CommonJs.dependencies_eq, hsame CommonJs.readsOutline]
    rw [CommonJs.extract, CommonJs.extract, fromScript_tree, fromScript_tree, hdeps]
  · have hmentioned : Amd.mentioned options t.uncommented = Amd.mentioned options t :=
      hsame (Amd.readsOutline options)
    rw [Amd.extract, Amd.extract, fromScript_tree, fromScript_tree, Amd.dependencies, hmentioned,
      Amd.dependencies]
  · have hdeps : Es6.dependencies options t.uncommented = Es6.dependencies options t := by
      simp only [Es6.dependencies_eq, hsame (Es6.readsOutline options)]
    rw [Es6.extract, Es6.extract, fromScript_tree, fromScript_tree, hdeps]

def commentAt (byte : Nat) (text : String) : Node :=
  .mk .comment none ⟨byte, byte + 5⟩ text false false []

/-- The program of the text `/*b*/require(/*c*/['a'/*d*/]);`. -/
def commentedProgram : Script.Tree :=
  ⟨.mk .program none ⟨0, 30⟩ "" false false [
    commentAt 0 "/*b*/",
    .mk .expressionStatement none ⟨5, 30⟩ "" false false [
      .mk .callExpression none ⟨5, 29⟩ "" false false [
        .mk .identifier (some .function) ⟨5, 12⟩ "require" false false [],
        .mk .arguments (some .arguments) ⟨12, 29⟩ "" false false [
          .mk (.mark "(") none ⟨12, 13⟩ "(" false false [],
          commentAt 13 "/*c*/",
          .mk .array none ⟨18, 28⟩ "" false false [
            .mk (.mark "[") none ⟨18, 19⟩ "[" false false [],
            .mk .string none ⟨19, 22⟩ "'a'" false false [],
            commentAt 22 "/*d*/",
            .mk (.mark "]") none ⟨27, 28⟩ "]" false false []],
          .mk (.mark ")") none ⟨28, 29⟩ ")" false false []]],
      .mk (.mark ";") none ⟨29, 30⟩ ";" false false []]],
    "/*b*/require(/*c*/['a'/*d*/]);"⟩

theorem commentedProgram_uncommented :
    (∀ m ∈ commentedProgram.root.preorder, m.kind = .comment →
      m.field = none ∧ m.children = []) ∧
    commentedProgram.uncommented.root.preorder.length + 3 =
      commentedProgram.root.preorder.length ∧
    Detect.ofScript commentedProgram.uncommented = .amd ∧
    Amd.extract {} (.tree (.script commentedProgram.uncommented)) = .ok ⟨["a"], none⟩ := by
  have hplain : ∀ m ∈ commentedProgram.root.preorder, m.kind = .comment →
      m.field = none ∧ m.children = [] := by
    decide +kernel
  have hdialect : Detect.ofScript commentedProgram = .amd := by
    decide +kernel
  have hdeps : Amd.dependencies {} commentedProgram = ["a"] := by
    decide +kernel
  obtain ⟨hsame, -, hamd, -⟩ := extract_uncommented commentedProgram hplain
  refine ⟨hplain, by decide +kernel, hsame.trans hdialect, ?_⟩
  rw [hamd, Amd.extract, fromScript_tree, hdeps]

end SourceDeps.Extract

import Mathlib.Order.Lattice
import SourceDeps.Detect
import SourceDeps.Proofs.Script.Call
import SourceDeps.Proofs.Script.Outline

namespace SourceDeps.Detect

open SourceDeps.Script

/-- The dialects that a script can have, each with more particular constructs than those before. -/
def ladder : List Dialect := [.none, .commonJs, .amd, .es6]

/-- How far up the ladder a dialect stands. -/
def rank (d : Dialect) : Nat := ladder.idxOf d

/-- The one of two dialects that stands further up. -/
def stronger (a b : Dialect) : Dialect := if rank a ≤ rank b then b else a

theorem rank_stronger (a b : Dialect) : rank (stronger a b) = max (rank a) (rank b) := by
  rw [stronger]
  split
  · next h => exact (Nat.max_eq_right h).symm
  · next h => exact (Nat.max_eq_left (Nat.le_of_not_le h)).symm

namespace Signals

/-- The dialect of a script, by whether it has constructs of ES6, of AMD and of CommonJS. -/
def dialectOf (es6 amd commonJs : Bool) : Dialect :=
  if es6 then .es6 else if amd then .amd else if commonJs then .commonJs else .none

theorem dialectOf_mem_ladder : ∀ e a c : Bool, dialectOf e a c ∈ ladder := by decide

theorem dialectOf_or : ∀ e e' a a' c c' : Bool, dialectOf (e || e') (a || a') (c || c') =
    stronger (dialectOf e a c) (dialectOf e' a' c') := by
  decide

theorem dialect_eq (s : Signals) :
    s.dialect = dialectOf s.es6 (s.define || s.driver) (s.require || s.exports) := rfl

theorem dialect_mem_ladder (s : Signals) : s.dialect ∈ ladder := by
  rw [dialect_eq]
  exact dialectOf_mem_ladder _ _ _

theorem dialect_join (a b : Signals) : (a.join b).dialect = stronger a.dialect b.dialect := by
  have hor : ∀ w x y z : Bool, (w || x || (y || z)) = (w || y || (x || z)) := by decide
  rw [dialect_eq, dialect_eq, dialect_eq, ← dialectOf_or, join, hor, hor a.require]

instance : Max Signals := ⟨join⟩

instance : SemilatticeSup Signals :=
  .mk'
    (fun a b => by simp only [max, join, Bool.or_comm])
    (fun a b c => by simp only [max, join, Bool.or_assoc])
    (fun a => by simp only [max, join, Bool.or_self])

theorem sup_eq_join (a b : Signals) : a ⊔ b = a.join b := rfl

theorem empty_le (s : Signals) : {} ≤ s := by
  have hjoin : ({} : Signals).join s = s := by simp only [join, Bool.false_or]
  exact sup_eq_right.mp hjoin

theorem driver_le_iff {b : Bool} {s : Signals} :
    ({ driver := b } : Signals) ≤ s ↔ (b = true → s.driver = true) := by
  rw [← sup_eq_right, sup_eq_join]
  cases s
  cases b <;> simp [join]

theorem rank_dialect_mono {a b : Signals} (h : a ≤ b) : rank a.dialect ≤ rank b.dialect := by
  have hjoin : b.dialect = stronger a.dialect b.dialect := by
    rw [← dialect_join, ← sup_eq_join, sup_eq_right.mpr h]
  rw [hjoin, rank_stronger]
  exact Nat.le_max_left _ _

/-- All of several constructs. -/
def joinAll (ss : List Signals) : Signals := ss.foldl join {}

theorem foldl_join_le_iff {ss : List Signals} {a b : Signals} :
    ss.foldl join a ≤ b ↔ a ≤ b ∧ ∀ s ∈ ss, s ≤ b := by
  induction ss generalizing a with
  | nil => simp
  | cons s ss ih =>
    rw [List.foldl_cons, ih, ← sup_eq_join, sup_le_iff, List.forall_mem_cons, and_assoc]

theorem joinAll_le_iff {ss : List Signals} {b : Signals} : joinAll ss ≤ b ↔ ∀ s ∈ ss, s ≤ b := by
  rw [joinAll, foldl_join_le_iff]
  exact and_iff_right (empty_le b)

theorem joinAll_mono {ss ts : List Signals} (h : ss ⊆ ts) : joinAll ss ≤ joinAll ts :=
  joinAll_le_iff.mpr fun _ hs => joinAll_le_iff.mp (le_refl (joinAll ts)) _ (h hs)

theorem joinAll_append (ss ts : List Signals) :
    joinAll (ss ++ ts) = (joinAll ss).join (joinAll ts) := by
  refine eq_of_forall_ge_iff fun b => ?_
  rw [← sup_eq_join, sup_le_iff, joinAll_le_iff, joinAll_le_iff, joinAll_le_iff,
    List.forall_mem_append]

end Signals

open Signals

theorem ofScript_mem_ladder (t : Script.Tree) : ofScript t ∈ ladder :=
  (signals t).dialect_mem_ladder

theorem signals_le_iff {t : Script.Tree} {s : Signals} :
    signals t ≤ s ↔ ∀ n ∈ t.root.preorder, signalsOf n ≤ s := by
  have hfold : signals t = joinAll (t.root.preorder.map signalsOf) := by
    rw [joinAll, List.foldl_map, signals]
  rw [hfold, joinAll_le_iff, List.forall_mem_map]

/-- Whether a statement is a call `require([...])`. -/
def isDriverStatement (s : Node) : Bool :=
  s.kind == .expressionStatement && s.children.any isDriver

/-- The constructs that a program has by one of its statements. -/
def ofStatement (s : Node) : Signals :=
  { driver := isDriverStatement s } ⊔ joinAll (s.preorder.map signalsOf)

theorem ofStatement_le_iff {n : Node} {s : Signals} : ofStatement n ≤ s ↔
    (isDriverStatement n = true → s.driver = true) ∧ ∀ m ∈ n.preorder, signalsOf m ≤ s := by
  rw [ofStatement, sup_le_iff, driver_le_iff, joinAll_le_iff, List.forall_mem_map]

/-- The node of a whole program is no construct itself, but it has the drivers among its
statements. -/
theorem signalsOf_program {n : Node} (h : n.kind = .program) :
    signalsOf n = { driver := n.children.any isDriverStatement } := by
  have hcall : ∀ name, n.isCallOf name = false := Node.isCallOf_eq_false (by simp [h])
  have hdriver : hasDriverStatement n = n.children.any isDriverStatement := by
    rw [hasDriverStatement, h]
    rfl
  rw [signalsOf, hcall, hcall, hdriver, h]
  rfl

theorem signals_program {t : Script.Tree} (h : t.IsProgram) :
    signals t = joinAll (t.root.children.map ofStatement) := by
  -- Both sides have the same upper bounds: those of the drivers among the statements and of what is
  -- below any of them.
  refine eq_of_forall_ge_iff fun s => ?_
  rw [signals_le_iff, Node.preorder_eq, List.forall_mem_cons, signalsOf_program h, driver_le_iff,
    joinAll_le_iff, List.forall_mem_map]
  simp only [ofStatement_le_iff, forall_and, List.any_eq_true, List.mem_flatMap]
  constructor
  · rintro ⟨hdriver, hbelow⟩
    exact ⟨fun n hn hd => hdriver ⟨n, hn, hd⟩, fun n hn m hm => hbelow m ⟨n, hn, hm⟩⟩
  · rintro ⟨hdriver, hbelow⟩
    exact ⟨fun ⟨n, hn, hd⟩ => hdriver n hn hd, fun m ⟨n, hn, hm⟩ => hbelow n hn m hm⟩

theorem takesArray_outline (n : Node) : takesArray n.outline = takesArray n := by
  rw [takesArray, takesArray, Node.callArguments_outline]
  cases n.callArguments with
  | nil => rfl
  | cons first rest => simp [Node.isArray]

theorem isDriver_outline (n : Node) : isDriver n.outline = isDriver n := by
  rw [isDriver, isDriver, Node.isCallOf_outline, takesArray_outline]

theorem isDriver_comment {n : Node} (h : n.kind = .comment) : isDriver n = false := by
  rw [isDriver, Node.isCallOf_eq_false (by simp [h]), Bool.false_and]

theorem isDriverStatement_outline (n : Node) :
    isDriverStatement n.outline = isDriverStatement n := by
  rw [isDriverStatement, isDriverStatement, Node.kind_outline, Node.children_outline,
    Node.any_filter_outline isDriver_outline fun _ => isDriver_comment]

theorem isDriverStatement_comment {n : Node} (h : n.kind = .comment) :
    isDriverStatement n = false := by
  rw [isDriverStatement, h]
  rfl

theorem hasDriverStatement_outline (n : Node) :
    hasDriverStatement n.outline = hasDriverStatement n := by
  rw [hasDriverStatement, hasDriverStatement, Node.kind_outline, Node.children_outline]
  exact congrArg _ (Node.any_filter_outline isDriverStatement_outline
    (fun _ => isDriverStatement_comment) n.children)

theorem isExports_outline (n : Node) : isExports n.outline = isExports n := by
  rw [isExports, isExports, Node.child?_outline, Node.child?_outline]
  cases n.child? .object with
  | none => rfl
  | some object => cases n.child? .property <;> simp

theorem signalsOf_outline (n : Node) : signalsOf n.outline = signalsOf n := by
  rw [signalsOf, signalsOf, Node.kind_outline, Node.isCallOf_outline, Node.isCallOf_outline,
    takesArray_outline, hasDriverStatement_outline, isExports_outline]

theorem signalsOf_comment {n : Node} (h : n.kind = .comment) : signalsOf n = {} := by
  have hcall : ∀ name, n.isCallOf name = false := Node.isCallOf_eq_false (by simp [h])
  rw [signalsOf, hcall, hcall, hasDriverStatement, h]
  rfl

theorem forall_signalsOf_outline (n : Node) (s : Signals) :
    (∀ m ∈ n.outline.preorder, signalsOf m ≤ s) ↔ ∀ m ∈ n.preorder, signalsOf m ≤ s := by
  apply Node.forall_preorder_outline
  · intro m
    rw [signalsOf_outline]
  · intro m hm
    rw [signalsOf_comment hm]
    exact empty_le s

theorem ofStatement_outline (n : Node) : ofStatement n.outline = ofStatement n := by
  refine eq_of_forall_ge_iff fun s => ?_
  rw [ofStatement_le_iff, ofStatement_le_iff, isDriverStatement_outline, forall_signalsOf_outline]

theorem signals_eq_of_outline_eq {t u : Script.Tree} (h : t.root.outline = u.root.outline) :
    signals t = signals u := by
  refine eq_of_forall_ge_iff fun s => ?_
  rw [signals_le_iff, signals_le_iff, ← forall_signalsOf_outline, h, forall_signalsOf_outline]

theorem signals_eq_joinAll_statements {t : Script.Tree} (h : t.IsProgram) :
    signals t = joinAll (t.statements.map ofStatement) := by
  rw [signals_program h, Script.Tree.statements, List.map_map]
  refine congrArg joinAll (List.map_congr_left fun n _ => ?_)
  have hunplaced : ofStatement n.unplaced = ofStatement n := by
    rw [← ofStatement_outline n.unplaced, Node.outline_unplaced, ofStatement_outline]
  exact hunplaced.symm

/-- The detected dialect of a program is the strongest that its statements call for. Two programs
put together have the stronger of their dialects, a program without statements has none. So neither
the order nor the number of equal statements counts, and no further statement weakens the dialect. -/
theorem ofScript_strongest (P Q : Script.Tree) (hP : P.IsProgram) (hQ : Q.IsProgram) :
    ofScript P ∈ ladder ∧
    (∀ R : Script.Tree, R.IsProgram → R.statements = P.statements ++ Q.statements →
      ofScript R = stronger (ofScript P) (ofScript Q)) ∧
    (P.statements = [] → ofScript P = .none) ∧
    ((∀ s, s ∈ P.statements ↔ s ∈ Q.statements) → ofScript P = ofScript Q) ∧
    (P.statements ⊆ Q.statements → rank (ofScript P) ≤ rank (ofScript Q)) := by
  have hmono {A B : Script.Tree} (hA : A.IsProgram) (hB : B.IsProgram)
      (h : A.statements ⊆ B.statements) : signals A ≤ signals B := by
    rw [signals_eq_joinAll_statements hA, signals_eq_joinAll_statements hB]
    exact joinAll_mono (List.map_subset _ h)
  refine ⟨ofScript_mem_ladder P, fun R hR h => ?_, fun h => ?_, fun h => ?_, fun h => ?_⟩
  · have hjoin : signals R = (signals P).join (signals Q) := by
      rw [signals_eq_joinAll_statements hR, h, List.map_append, joinAll_append,
        ← signals_eq_joinAll_statements hP, ← signals_eq_joinAll_statements hQ]
    rw [ofScript, hjoin, dialect_join]
    rfl
  · rw [ofScript, signals_eq_joinAll_statements hP, h]
    rfl
  · have heq : signals P = signals Q :=
      le_antisymm (hmono hP hQ fun s hs => (h s).mp hs) (hmono hQ hP fun s hs => (h s).mpr hs)
    rw [ofScript, heq, ofScript]
  · exact rank_dialect_mono (hmono hP hQ h)

/-- The statement `require('a');` at the beginning of a text. -/
def requireStatement : Node :=
  .mk .expressionStatement none ⟨0, 13⟩ "" false false [
    .mk .callExpression none ⟨0, 12⟩ "" false false [
      .mk .identifier (some .function) ⟨0, 7⟩ "require" false false [],
      .mk .arguments (some .arguments) ⟨7, 12⟩ "" false false [
        .mk (.mark "(") none ⟨7, 8⟩ "(" false false [],
        .mk .string none ⟨8, 11⟩ "'a'" false false [],
        .mk (.mark ")") none ⟨11, 12⟩ ")" false false []]],
    .mk (.mark ";") none ⟨12, 13⟩ ";" false false []]

/-- The statement `require([]);` at a byte of a text. -/
def driverStatement (byte : Nat) : Node :=
  .mk .expressionStatement none ⟨byte, byte + 12⟩ "" false false [
    .mk .callExpression none ⟨byte, byte + 11⟩ "" false false [
      .mk .identifier (some .function) ⟨byte, byte + 7⟩ "require" false false [],
      .mk .arguments (some .arguments) ⟨byte + 7, byte + 11⟩ "" false false [
        .mk (.mark "(") none ⟨byte + 7, byte + 8⟩ "(" false false [],
        .mk .array none ⟨byte + 8, byte + 10⟩ "" false false [
          .mk (.mark "[") none ⟨byte + 8, byte + 9⟩ "[" false false [],
          .mk (.mark "]") none ⟨byte + 9, byte + 10⟩ "]" false false []],
        .mk (.mark ")") none ⟨byte + 10, byte + 11⟩ ")" false false []]],
    .mk (.mark ";") none ⟨byte + 11, byte + 12⟩ ";" false false []]

def requireProgram : Script.Tree :=
  ⟨.mk .program none ⟨0, 13⟩ "" false false [requireStatement], "require('a');"⟩

def driverProgram : Script.Tree :=
  ⟨.mk .program none ⟨0, 12⟩ "" false false [driverStatement 0], "require([]);"⟩

/-- The program of the text `require('a');require([]);`. -/
def bothProgram : Script.Tree :=
  ⟨.mk .program none ⟨0, 25⟩ "" false false [requireStatement, driverStatement 13],
    "require('a');require([]);"⟩

theorem bothProgram_isAmd :
    (requireProgram.IsProgram ∧ driverProgram.IsProgram ∧ bothProgram.IsProgram ∧
      bothProgram.statements = requireProgram.statements ++ driverProgram.statements) ∧
    ofScript requireProgram = .commonJs ∧ ofScript driverProgram = .amd ∧
    ofScript bothProgram = stronger (ofScript requireProgram) (ofScript driverProgram) ∧
    ofScript bothProgram = .amd := by
  have hrequire : ofScript requireProgram = .commonJs := by
    decide +kernel
  have hdriver : ofScript driverProgram = .amd := by
    decide +kernel
  have hboth : ofScript bothProgram =
      stronger (ofScript requireProgram) (ofScript driverProgram) :=
    (ofScript_strongest requireProgram driverProgram rfl rfl).2.1 bothProgram rfl rfl
  refine ⟨⟨rfl, rfl, rfl, rfl⟩, hrequire, hdriver, hboth, ?_⟩
  rw [hboth, hrequire, hdriver]
  rfl

end SourceDeps.Detect

import SourceDeps.Extract.Es6
import SourceDeps.Proofs.Detect
import SourceDeps.Proofs.Extract.Outermost

namespace SourceDeps.Extract

open SourceDeps.Script SourceDeps.Detect

variable {t : Script.Tree} {n : Node}

/-- A call `require([...])`. -/
def IsArrayRequire (n : Node) : Prop :=
  n.isCallOf "require" = true ∧ ∃ list, n.callArguments.head? = some list ∧ list.kind = .array

/-- A place directly in an expression statement of a program. -/
def InProgramStatement (root : Node) (p : Place) : Prop :=
  ∃ q i j program statement, p = q ++ [i, j] ∧
    root.nodeAt? q = some program ∧ program.kind = .program ∧
    root.nodeAt? (q ++ [i]) = some statement ∧ statement.kind = .expressionStatement

theorem takesArray_iff :
    takesArray n = true ↔ ∃ list, n.callArguments.head? = some list ∧ list.kind = .array := by
  rw [takesArray]
  cases n.callArguments with
  | nil => simp
  | cons first rest => simp [Node.isArray]

theorem isDriver_iff : isDriver n = true ↔ IsArrayRequire n := by
  rw [isDriver, Bool.and_eq_true, takesArray_iff, IsArrayRequire]

theorem le_rank_dialect (s : Signals) :
    (s.es6 = true → 3 ≤ rank s.dialect) ∧
    (s.define = true ∨ s.driver = true → 2 ≤ rank s.dialect) ∧
    (s.require = true ∨ s.exports = true → 1 ≤ rank s.dialect) := by
  have hladder : ∀ e a c : Bool, (e = true → 3 ≤ rank (Signals.dialectOf e a c)) ∧
      (a = true → 2 ≤ rank (Signals.dialectOf e a c)) ∧
      (c = true → 1 ≤ rank (Signals.dialectOf e a c)) := by
    decide
  rw [Signals.dialect_eq, ← Bool.or_eq_true, ← Bool.or_eq_true]
  exact hladder _ _ _

/-- No node of a tree is a construct of a stronger dialect than the one that is found out. -/
theorem le_rank_of_mem (h : n ∈ t.root.preorder) {r : Nat} (hr : r ≤ rank (signalsOf n).dialect) :
    r ≤ rank (ofScript t) := by
  have hle : signalsOf n ≤ signals t := signals_le_iff.mp (le_refl (signals t)) n h
  exact hr.trans (Signals.rank_dialect_mono hle)

theorem one_le_rank_of_required {name : String} (h : n ∈ t.root.preorder)
    (hname : CommonJs.required? n = some name) : 1 ≤ rank (ofScript t) := by
  rw [CommonJs.required?, Option.ite_none_right_eq_some, Node.firstString?,
    Option.bind_eq_some_iff] at hname
  obtain ⟨hcall, first, hfirst, hvalue⟩ := hname
  -- The argument is a literal, so that the call is none of a driver.
  have harray : takesArray n = false := by
    apply eq_false_of_ne_true
    intro htakes
    obtain ⟨list, hlist, hkind⟩ := takesArray_iff.mp htakes
    obtain rfl : first = list := Option.some.inj (hfirst.symm.trans hlist)
    rw [Node.stringValue?, hkind] at hvalue
    cases hvalue
  have hrequire : (signalsOf n).require = true := by
    rw [signalsOf, hcall, harray]
    rfl
  exact le_rank_of_mem h ((le_rank_dialect _).2.2 (.inl hrequire))

theorem three_le_rank_of_statement {name : String} (h : n ∈ t.root.preorder)
    (hname : Es6.statementSource? n = some name) : 3 ≤ rank (ofScript t) := by
  rw [Es6.statementSource?, Option.ite_none_right_eq_some] at hname
  have hes6 : (signalsOf n).es6 = true := by
    rw [signalsOf]
    rcases hname.1 with hkind | hkind <;> simp [hkind]
  exact le_rank_of_mem h ((le_rank_dialect _).1 hes6)

theorem two_le_rank_of_define (h : n ∈ t.root.preorder) (hcall : n.isCallOf "define" = true) :
    2 ≤ rank (ofScript t) :=
  le_rank_of_mem h ((le_rank_dialect _).2.1 (.inl hcall))

theorem two_le_rank_of_inProgramStatement {p : Place} (hn : t.root.nodeAt? p = some n)
    (hcall : IsArrayRequire n) (hp : InProgramStatement t.root p) : 2 ≤ rank (ofScript t) := by
  obtain ⟨q, i, j, program, statement, rfl, hprogram, hkind, hstatement, hkind'⟩ := hp
  -- The call is a child of the statement, and the statement one of the program.
  rw [Node.nodeAt?_append, hprogram, Option.bind_some] at hstatement hn
  obtain ⟨s, hs, hs'⟩ := Node.nodeAt?_cons_eq_some.mp hstatement
  obtain rfl : s = statement := Option.some.inj hs'
  obtain ⟨s', hs', hn⟩ := Node.nodeAt?_cons_eq_some.mp hn
  obtain rfl : s = s' := Option.some.inj (hs.symm.trans hs')
  obtain ⟨m, hm, hn⟩ := Node.nodeAt?_cons_eq_some.mp hn
  obtain rfl : m = n := Option.some.inj hn
  have hdriver : isDriverStatement s = true := by
    rw [isDriverStatement, hkind', Bool.and_eq_true]
    exact ⟨rfl, List.any_eq_true.mpr ⟨m, List.mem_of_getElem? hm, isDriver_iff.mpr hcall⟩⟩
  have hmem : program ∈ t.root.preorder := Node.mem_preorder_iff.mpr ⟨q, hprogram⟩
  have hsignal : (signalsOf program).driver = true := by
    rw [signalsOf_program hkind]
    exact List.any_eq_true.mpr ⟨s, List.mem_of_getElem? hs, hdriver⟩
  exact le_rank_of_mem hmem ((le_rank_dialect _).2.1 (.inr hsignal))

theorem exists_contributes {options : AmdOptions} {name : String}
    (h : name ∈ Amd.dependencies options t) :
    ∃ p n names, Amd.Handled t.root p ∧ t.root.nodeAt? p = some n ∧
      Amd.Contributes options n names ∧ name ∈ names := by
  rw [Amd.dependencies, Amd.distinct_eq, List.mem_eraseDups, List.mem_filter, Amd.mentioned,
    ← Node.map_snd_met, List.flatMap_map, List.mem_flatMap] at h
  obtain ⟨⟨⟨p, n⟩, hmet, hname⟩, -⟩ := h
  -- A node that gives anything is an AMD call, and one that the walk meets is handled.
  have hhandled : Amd.isHandled n = true := by
    apply eq_true_of_ne_false
    intro hnot
    rw [Amd.contribution_eq_nil options hnot] at hname
    cases hname
  have hfound := (Amd.enumerates_handled t.root).mem_iff p n
  obtain ⟨hn, hp⟩ := hfound.mp (List.mem_filter.mpr ⟨hmet, hhandled⟩)
  exact ⟨p, n, Amd.contribution options n, hp, hn,
    Amd.contributes_contribution options (Amd.isHandled_iff.mp hhandled), hname⟩

/-- Detection overlooks nothing that an extractor reports: where CommonJS finds a module, some
dialect is found out, and where ES6 finds a module statement, it is ES6. Where neither ES6 nor AMD
is found out, nothing calls `define`, and all that AMD would report is given by calls
`require([...])` of which none is a statement of the program. -/
theorem detection_covers_extraction (t : Script.Tree) :
    (∃ names, CommonJs.extract (.tree (.script t)) = .ok ⟨names, none⟩ ∧
      (names ≠ [] → ofScript t ≠ .none)) ∧
    (∃ names, Es6.extract { mixedImports := false, skipAsyncImports := true }
        (.tree (.script t)) = .ok ⟨names, none⟩ ∧
      (names ≠ [] → ofScript t = .es6)) ∧
    (ofScript t = .none ∨ ofScript t = .commonJs →
      (∀ p n, t.root.nodeAt? p = some n → n.isCallOf "define" = false) ∧
      (∀ p n, Amd.Handled t.root p → t.root.nodeAt? p = some n →
        IsArrayRequire n ∧ ¬InProgramStatement t.root p) ∧
      ∀ options, ∃ names, Amd.extract options (.tree (.script t)) = .ok ⟨names, none⟩ ∧
        ∀ name ∈ names, ∃ p n given, Amd.Handled t.root p ∧ t.root.nodeAt? p = some n ∧
          Amd.Contributes options n given ∧ name ∈ given) := by
  refine ⟨⟨CommonJs.dependencies t, rfl, ?_⟩, ⟨Es6.dependencies _ t, rfl, ?_⟩, ?_⟩
  · intro hne hnone
    obtain ⟨name, hname⟩ := List.exists_mem_of_ne_nil _ hne
    obtain ⟨n, hn, hrequired⟩ := List.mem_filterMap.mp hname
    have hrank := one_le_rank_of_required hn hrequired
    rw [hnone] at hrank
    exact absurd hrank (by decide)
  · intro hne
    obtain ⟨name, hname⟩ := List.exists_mem_of_ne_nil _ hne
    obtain ⟨n, hn, hreference⟩ := List.mem_filterMap.mp hname
    have hloaded : Es6.loaded? { mixedImports := false, skipAsyncImports := true } n = none := by
      simp [Es6.loaded?]
    rw [Es6.reference?, hloaded, Option.or_none] at hreference
    have hrank := three_le_rank_of_statement hn hreference
    have hladder : ∀ d ∈ ladder, 3 ≤ rank d → d = .es6 := by
      decide
    exact hladder _ (ofScript_mem_ladder t) hrank
  · intro hweak
    have hrank : ¬2 ≤ rank (ofScript t) := by
      rcases hweak with h | h <;> rw [h] <;> decide
    have hdefine (p : Place) (n : Node) (hn : t.root.nodeAt? p = some n) :
        n.isCallOf "define" = false := by
      apply eq_false_of_ne_true
      intro hcall
      exact hrank (two_le_rank_of_define (Node.mem_preorder_iff.mpr ⟨p, hn⟩) hcall)
    refine ⟨hdefine, ?_, ?_⟩
    · intro p n hhandled hn
      have hcall : IsArrayRequire n := by
        rcases ((Amd.handled_iff hn).mp hhandled).1 with hcall | hcall
        · rw [hdefine p n hn] at hcall
          cases hcall
        · exact hcall
      exact ⟨hcall, fun hp => hrank (two_le_rank_of_inProgramStatement hn hcall hp)⟩
    · intro options
      exact ⟨Amd.dependencies options t, rfl, fun name => exists_contributes⟩

/-- The program of the text `{require(['a'])}`. -/
def blockProgram : Script.Tree :=
  ⟨.mk .program none ⟨0, 16⟩ "" false false [
    .mk (.other "statement_block") none ⟨0, 16⟩ "" false false [
      .mk (.mark "\x7b") none ⟨0, 1⟩ "\x7b" false false [],
      .mk .expressionStatement none ⟨1, 15⟩ "" false false [
        .mk .callExpression none ⟨1, 15⟩ "" false false [
          .mk .identifier (some .function) ⟨1, 8⟩ "require" false false [],
          .mk .arguments (some .arguments) ⟨8, 15⟩ "" false false [
            .mk (.mark "(") none ⟨8, 9⟩ "(" false false [],
            .mk .array none ⟨9, 14⟩ "" false false [
              .mk (.mark "[") none ⟨9, 10⟩ "[" false false [],
              .mk .string none ⟨10, 13⟩ "'a'" false false [],
              .mk (.mark "]") none ⟨13, 14⟩ "]" false false []],
            .mk (.mark ")") none ⟨14, 15⟩ ")" false false []]]],
      .mk (.mark "\x7d") none ⟨15, 16⟩ "\x7d" false false []]],
    "\x7brequire(['a'])\x7d"⟩

theorem blockProgram_isOverlooked : ofScript blockProgram = .none ∧
    Amd.extract {} (.tree (.script blockProgram)) = .ok ⟨["a"], none⟩ ∧
    ∃ p n given, Amd.Handled blockProgram.root p ∧ blockProgram.root.nodeAt? p = some n ∧
      Amd.Contributes {} n given ∧ "a" ∈ given ∧ IsArrayRequire n ∧
      ¬InProgramStatement blockProgram.root p := by
  have hnone : ofScript blockProgram = .none := by
    decide +kernel
  have hamd : Amd.dependencies {} blockProgram = ["a"] := by
    decide +kernel
  have hextract : Amd.extract {} (.tree (.script blockProgram)) = .ok ⟨["a"], none⟩ := by
    rw [← hamd]
    rfl
  obtain ⟨-, hhandled, hgiven⟩ := (detection_covers_extraction blockProgram).2.2 (.inl hnone)
  obtain ⟨names, hnames, hfrom⟩ := hgiven {}
  rw [hextract] at hnames
  cases hnames
  obtain ⟨p, n, given, hp, hn, hgives, ha⟩ := hfrom "a" List.mem_cons_self
  exact ⟨hnone, hextract, p, n, given, hp, hn, hgives, ha, hhandled p n hp hn⟩

end SourceDeps.Extract

import SourceDeps.Script.Call

namespace SourceDeps.Script

open SourceDeps.Text

/-- The marks that stand around a literal. -/
def quoteMarks : List Char := ['\x22', '\x27', '\x60']

namespace Node

theorem isCallOf_iff {n : Node} {name : String} : n.isCallOf name = true ↔
    n.kind = .callExpression ∧ ∃ callee, n.child? .function = some callee ∧
      callee.kind = .identifier ∧ callee.text = name := by
  rw [isCallOf, beq_iff_eq, calleeName?]
  by_cases hkind : n.kind = .callExpression
  · rw [if_pos hkind, and_iff_right hkind]
    cases n.child? .function with
    | none => simp
    | some callee => simp
  · simp [hkind]

theorem isCallOf_eq_false {n : Node} (h : n.kind ≠ .callExpression) (name : String) :
    n.isCallOf name = false :=
  eq_false_of_ne_true fun hcall => h (isCallOf_iff.mp hcall).1

theorem isDynamicImport_iff {n : Node} : n.isDynamicImport = true ↔
    n.kind = .callExpression ∧ ∃ callee, n.child? .function = some callee ∧
      callee.kind = .import_ := by
  rw [isDynamicImport, Bool.and_eq_true, beq_iff_eq]
  cases n.child? .function with
  | none => simp
  | some callee => simp

theorem isDynamicImport_eq_false {n : Node} (h : n.kind ≠ .callExpression) :
    n.isDynamicImport = false :=
  eq_false_of_ne_true fun hcall => h (isDynamicImport_iff.mp hcall).1

/-- Whether a node is a string, or a template without substitutions. -/
def isLiteral (n : Node) : Bool :=
  n.kind == .string ||
    n.kind == .templateString && !n.namedChildren.any (·.kind == .templateSubstitution)

theorem isBlank_of_mem_quoteMarks {quote : Char} (h : quote ∈ quoteMarks) :
    isBlank quote = false := by
  simp only [quoteMarks, List.mem_cons, List.not_mem_nil, or_false] at h
  rcases h with rfl | rfl | rfl <;> rfl

/-- A literal with its quotes has the text between them as its value. -/
theorem unquoted_eq {s : String} {quote : Char} {body : List Char} (hq : quote ∈ quoteMarks)
    (hs : s.toList = quote :: (body ++ [quote])) : unquoted s = String.ofList body := by
  have hblank : isBlank quote = false := isBlank_of_mem_quoteMarks hq
  have htrim : trim s.toList = quote :: (body ++ [quote]) := by
    rw [hs, trim, trimRight, List.dropWhile_cons_of_neg (by simp [hblank])]
    simp [List.dropWhile_cons_of_neg, hblank]
  have hlast : (body ++ [quote]).getLast? = some quote := List.getLast?_concat
  simp only [quoteMarks, List.mem_cons, List.not_mem_nil, or_false] at hq
  rw [unquoted, htrim]
  rcases hq with rfl | rfl | rfl <;> simp [hlast]

/-- Literals are the nodes that have a value. -/
theorem stringValue?_eq (n : Node) :
    n.stringValue? = if n.isLiteral then some (unquoted n.text) else none := by
  rw [Node.stringValue?, isLiteral]
  cases n.kind
  case templateString =>
    cases n.namedChildren.any (·.kind == .templateSubstitution) <;> rfl
  all_goals rfl

/-- Whether a node in an argument list is an argument. -/
def isArgument (n : Node) : Bool := n.kind != .comment && n.kind.isNamed

theorem callArguments_eq (n : Node) : n.callArguments =
    match n.child? .arguments with
    | some args => args.children.filter isArgument
    | none => [] := by
  rw [callArguments]
  cases n.child? .arguments with
  | none => rfl
  | some args => exact List.filter_filter

theorem isArgument_of_isFunctionLike {n : Node} (h : n.isFunctionLike = true) :
    n.isArgument = true := by
  rw [isFunctionLike] at h
  rw [isArgument]
  cases hkind : n.kind <;> simp_all [Kind.isFunctionLike, Kind.isNamed]

theorem isArray_of_isFunctionLike {n : Node} (h : n.isFunctionLike = true) :
    n.isArray = false := by
  apply eq_false_of_ne_true
  intro harray
  rw [isArray, beq_iff_eq] at harray
  rw [isFunctionLike, harray] at h
  cases h

theorem kind_of_stringValue? {n : Node} (h : n.stringValue?.isSome = true) :
    n.kind = .string ∨ n.kind = .templateString := by
  rw [stringValue?] at h
  split at h
  · next hkind => exact .inl hkind
  · next hkind => exact .inr hkind
  · cases h

theorem isArray_of_stringValue? {n : Node} (h : n.stringValue?.isSome = true) :
    n.isArray = false := by
  rw [isArray]
  rcases kind_of_stringValue? h with hkind | hkind <;> rw [hkind] <;> rfl

theorem isFunctionLike_of_stringValue? {n : Node} (h : n.stringValue?.isSome = true) :
    n.isFunctionLike = false := by
  rw [isFunctionLike]
  rcases kind_of_stringValue? h with hkind | hkind <;> rw [hkind] <;> rfl

def firstLiteral? (n : Node) : Option Node := n.callArguments.head?.filter isLiteral

theorem firstLiteral?_eq_some {n lit : Node} : n.firstLiteral? = some lit ↔
    n.callArguments.head? = some lit ∧ lit.isLiteral = true :=
  Option.filter_eq_some_iff

theorem firstString?_eq (n : Node) : n.firstString? = n.firstLiteral?.bind stringValue? := by
  rw [firstString?, firstLiteral?]
  cases n.callArguments.head? with
  | none => rfl
  | some lit =>
    rw [Option.bind_some, Option.filter_some]
    cases hlit : lit.isLiteral with
    | true => rfl
    | false => rw [stringValue?_eq, hlit]; rfl

end Node

end SourceDeps.Script

import SourceDeps.Proofs.Loop
import SourceDeps.Proofs.Script.Place
import SourceDeps.Script.Reader

/-! In a tree whose flags are right a flagged node has a fault in itself or a flagged child, so that
the search goes on until it ends at a fault; and the children passed over on the way have none. -/

namespace SourceDeps.Script

open Relation (ReflTransGen)

namespace Node

/-- A node that is an error itself, or stands for a token that is not in the text. -/
def isFault (n : Node) : Bool := n.isError || n.isMissing

/-- The flag of every node of a tree says whether there is a fault at the node or below it. -/
def FlagsFaults (root : Node) : Prop :=
  ∀ n ∈ root.preorder, n.hasError = true ↔ ∃ m ∈ n.preorder, m.isFault = true

/-- One turn of the search, which knows the place where it is: it ends at a fault, and else goes on
at the first child with a flag. Without such a child it ends as well, and where it began it then has
found nothing. -/
def faultStep : Place × Node → Option (Place × Node) ⊕ (Place × Node)
  | (p, n) =>
    if n.isFault then .inl (some (p, n))
    else
      match n.children.find? hasError with
      | some c => .inr (p ++ [n.children.findIdx hasError], c)
      | none => .inl (if p = [] then none else some (p, n))

/-- The search is a loop, which need not end. -/
def faultSearch : Place × Node →. Option (Place × Node) :=
  stepwise fun s => Part.some (faultStep s)

/-- The search comes from one node to another. -/
def SearchComesTo : Place × Node → Place × Node → Prop :=
  ReflTransGen fun s t => faultStep s = .inr t

variable {n c : Node}

theorem faultStep_fault (h : n.isFault = true) (p : Place) :
    faultStep (p, n) = .inl (some (p, n)) :=
  if_pos h

theorem faultStep_child (hn : n.isFault = false) (hc : n.children.find? hasError = some c)
    (p : Place) : faultStep (p, n) = .inr (p ++ [n.children.findIdx hasError], c) := by
  simp only [faultStep, hn, hc, Bool.false_eq_true, if_false]

/-- The only way on is to a child with a flag. -/
theorem find?_of_faultStep {p q : Place} (h : faultStep (p, n) = .inr (q, c)) :
    n.children.find? hasError = some c := by
  rw [faultStep] at h
  cases hn : n.isFault with
  | true => simp [hn] at h
  | false =>
    cases hc : n.children.find? hasError with
    | none => simp [hn, hc] at h
    | some d =>
      simp only [hn, hc, Bool.false_eq_true, if_false, Sum.inr.injEq, Prod.mk.injEq] at h
      rw [h.2]

theorem firstErrorFrom_fault (h : n.isFault = true) (isStart : Bool) :
    n.firstErrorFrom isStart = some n := by
  rw [firstErrorFrom]
  exact if_pos h

theorem firstErrorFrom_child (hn : n.isFault = false) (hc : n.children.find? hasError = some c)
    (isStart : Bool) : n.firstErrorFrom isStart = c.firstErrorFrom false := by
  have hfault : (n.isError || n.isMissing) = false := hn
  rw [firstErrorFrom, hfault, if_neg Bool.false_ne_true]
  split
  · rename_i d hd
    rw [hc] at hd
    rw [Option.some.inj hd]
  · rename_i hnone
    rw [hc] at hnone
    cases hnone

theorem metFrom_append (descend : Node → Bool) (i : Nat) (cs ds : List Node) :
    metFrom descend i (cs ++ ds) = metFrom descend i cs ++ metFrom descend (i + cs.length) ds := by
  induction cs generalizing i with
  | nil => rfl
  | cons c cs ih =>
    rw [List.cons_append, metFrom, metFrom, ih, List.append_assoc, List.length_cons,
      Nat.add_assoc i 1, Nat.add_comm 1]

namespace FlagsFaults

theorem child (h : n.FlagsFaults) (hc : c ∈ n.children) : c.FlagsFaults := fun m hm =>
  h m (mem_preorder_of_child hc hm)

/-- A node with a flag that is no fault has a child with a flag. -/
theorem exists_child (h : n.FlagsFaults) (herror : n.hasError = true) (hn : n.isFault = false) :
    ∃ c ∈ n.children, c.hasError = true := by
  obtain ⟨m, hm, hfault⟩ := (h n (mem_preorder_self n)).mp herror
  rw [preorder_eq] at hm
  rcases List.mem_cons.mp hm with rfl | hbelow
  · rw [hn] at hfault
    cases hfault
  · obtain ⟨c, hc, hmc⟩ := List.mem_flatMap.mp hbelow
    exact ⟨c, hc, (h.child hc c (mem_preorder_self c)).mpr ⟨m, hmc, hfault⟩⟩

/-- There is no fault at or below a child without a flag. -/
theorem find?_metFrom (h : n.FlagsFaults) {cs : List Node} (hcs : ∀ c ∈ cs, c ∈ n.children)
    (hflags : ∀ c ∈ cs, c.hasError = false) (i : Nat) :
    (metFrom (fun _ => true) i cs).find? (·.2.isFault) = none := by
  rw [List.find?_eq_none]
  rintro ⟨q, m⟩ hm hfault
  obtain ⟨j, p, c, -, hget, hmet⟩ := (mem_metFrom _).mp hm
  have hc : c ∈ cs := List.mem_of_getElem? hget
  have hmc : m ∈ c.preorder := mem_preorder_iff.mpr ⟨p, mem_met_true.mp hmet⟩
  have herror : c.hasError = true :=
    (h.child (hcs c hc) c (mem_preorder_self c)).mpr ⟨m, hmc, hfault⟩
  rw [hflags c hc] at herror
  cases herror

/-- The first fault of a node that is none itself is the first one below its first child with a
flag. -/
theorem find?_met_child (h : n.FlagsFaults) (hn : n.isFault = false)
    (hc : n.children.find? hasError = some c) {q : Place} {m : Node}
    (hm : (c.met fun _ => true).find? (·.2.isFault) = some (q, m)) :
    (n.met fun _ => true).find? (·.2.isFault) =
      some (n.children.findIdx hasError :: q, m) := by
  obtain ⟨herror, before, after, hsplit, hbefore⟩ := List.find?_eq_some_iff_append.mp hc
  have hflags : ∀ d ∈ before, d.hasError = false := fun d hd => by simpa using hbefore d hd
  have hindex : n.children.findIdx hasError = before.length := by
    rw [hsplit, List.findIdx_append, List.findIdx_eq_length_of_false (by simpa using hflags)]
    simp [List.findIdx_cons, herror]
  have hnone : (metFrom (fun _ => true) 0 before).find? (·.2.isFault) = none :=
    h.find?_metFrom (fun d hd => hsplit ▸ List.mem_append_left _ hd) hflags 0
  have hbelow : (c.met fun _ => true).find? ((fun a : Place × Node => a.2.isFault) ∘
      fun (p, m) => ((0 + before.length) :: p, m)) = some (q, m) := hm
  rw [met_eq, List.find?_cons_of_neg (by simp [hn]), if_pos rfl, hindex, hsplit, metFrom_append,
    List.find?_append, hnone, Option.none_or, metFrom, List.find?_append, List.find?_map, hbelow,
    Option.map_some, Option.some_or, Nat.zero_add]

/-- From a node with a flag on, the search comes to the first fault at or below the node. -/
theorem search (h : n.FlagsFaults) (herror : n.hasError = true) :
    ∃ q m, (n.met fun _ => true).find? (·.2.isFault) = some (q, m) ∧
      (∀ p, faultSearch (p, n) = Part.some (some (p ++ q, m))) ∧
      ∀ isStart, n.firstErrorFrom isStart = some m := by
  induction n using induct with
  | step n ih =>
    cases hn : n.isFault with
    | true =>
      refine ⟨[], n, ?_, fun p => ?_, firstErrorFrom_fault hn⟩
      · rw [met_eq]
        exact List.find?_cons_of_pos (by exact hn)
      · rw [List.append_nil]
        exact stepwise_done (congrArg Part.some (faultStep_fault hn p))
    | false =>
      obtain ⟨d, hd, hderror⟩ := h.exists_child herror hn
      obtain ⟨c, hfind⟩ : ∃ c, n.children.find? hasError = some c :=
        Option.isSome_iff_exists.mp (List.find?_isSome.mpr ⟨d, hd, hderror⟩)
      have hc : c ∈ n.children := List.mem_of_find?_eq_some hfind
      obtain ⟨q, m, hfirst, hsearch, hfrom⟩ := ih c hc (h.child hc) (List.find?_some hfind)
      refine ⟨n.children.findIdx hasError :: q, m, h.find?_met_child hn hfind hfirst,
        fun p => ?_, fun isStart => ?_⟩
      · have hstep := congrArg Part.some (faultStep_child hn hfind p)
        rw [faultSearch, stepwise_next hstep, ← faultSearch, hsearch, List.append_assoc,
          List.singleton_append]
      · rw [firstErrorFrom_child hn hfind, hfrom]

/-- Wherever the search comes to, the flags below are right and the node has one. -/
theorem of_searchComesTo {s t : Place × Node} (hcomes : SearchComesTo s t)
    (h : s.2.FlagsFaults) (herror : s.2.hasError = true) :
    t.2.FlagsFaults ∧ t.2.hasError = true := by
  induction hcomes with
  | refl => exact ⟨h, herror⟩
  | @tail s' t' _ hstep ih =>
    have hfind := find?_of_faultStep (n := s'.2) (c := t'.2) hstep
    exact ⟨ih.1.child (List.mem_of_find?_eq_some hfind), List.find?_some hfind⟩

end FlagsFaults

/-- In a tree whose flags are right and whose root has one, the search ends at the first fault of
the tree. On its way it never is at a node that has neither a fault in itself nor a child to go on
with. Hence a text from which that tree is recovered is refused at the place of that fault. -/
theorem firstError?_is_first {root : Node} (hflags : root.FlagsFaults)
    (herror : root.hasError = true) :
    ∃ p n, (root.met fun _ => true).find? (·.2.isFault) = some (p, n) ∧
      root.preorder.find? isFault = some n ∧
      faultSearch ([], root) = Part.some (some (p, n)) ∧ root.firstError? = some n ∧
      (∀ q m, SearchComesTo ([], root) (q, m) →
        m.isFault = true ∨ ∃ c ∈ m.children, c.hasError = true) ∧
      ∀ source, Reader.recover source = root →
        read source = .error (.ofByte source n.span.start) := by
  obtain ⟨p, n, hfirst, hsearch, hfrom⟩ := hflags.search herror
  have hfound : root.firstError? = some n := hfrom true
  refine ⟨p, n, hfirst, ?_, hsearch [], hfound, fun q m hcomes => ?_, fun source hroot => ?_⟩
  · rw [preorder, ← map_snd_met, List.find?_map]
    exact congrArg (Option.map Prod.snd) hfirst
  · obtain ⟨hflagsBelow, herrorBelow⟩ := FlagsFaults.of_searchComesTo hcomes hflags herror
    cases hm : m.isFault with
    | true => exact .inl rfl
    | false => exact .inr (hflagsBelow.exists_child herrorBelow hm)
  · simp only [read, hroot, herror, if_true, hfound, Option.getD_some]

/-- The tree that is recovered of the text `a;b(;c d`. Behind a statement without faults there is
one without its closing parenthesis, and then one without its semicolon. -/
def faultyTree : Node :=
  .mk .program none ⟨0, 8⟩ "" false true [
    .mk .expressionStatement none ⟨0, 2⟩ "" false false [
      .mk .identifier none ⟨0, 1⟩ "a" false false [],
      .mk (.mark ";") none ⟨1, 2⟩ ";" false false []],
    .mk .expressionStatement none ⟨2, 5⟩ "" false true [
      .mk .callExpression none ⟨2, 4⟩ "" false true [
        .mk .identifier (some .function) ⟨2, 3⟩ "b" false false [],
        .mk .arguments (some .arguments) ⟨3, 4⟩ "" false true [
          .mk (.mark "(") none ⟨3, 4⟩ "(" false false [],
          .mk (.mark ")") none ⟨4, 4⟩ "" true true []]],
      .mk (.mark ";") none ⟨4, 5⟩ ";" false false []],
    .mk .expressionStatement none ⟨5, 6⟩ "" false true [
      .mk .identifier none ⟨5, 6⟩ "c" false false [],
      .mk (.mark ";") none ⟨6, 6⟩ "" true true []],
    .mk .expressionStatement none ⟨7, 8⟩ "" false false [
      .mk .identifier none ⟨7, 8⟩ "d" false false []]]

/-- The search ends at the missing parenthesis. -/
theorem faultyTree_searched :
    faultyTree.FlagsFaults ∧ faultyTree.hasError = true ∧
    (∃ n, faultSearch ([], faultyTree) = Part.some (some ([1, 0, 1, 1], n))) ∧
    (faultyTree.firstError?.map fun n => (n.kind, n.isMissing)) = some (.mark ")", true) ∧
    ∀ source, Reader.recover source = faultyTree →
      read source = .error (.ofByte source 4) := by
  have hflags : faultyTree.FlagsFaults := by
    unfold FlagsFaults
    decide +kernel
  obtain ⟨p, n, hfirst, -, hsearch, hfound, -, hread⟩ := firstError?_is_first hflags rfl
  obtain ⟨rfl, rfl⟩ := Prod.mk.inj (Option.some.inj hfirst)
  exact ⟨hflags, rfl, ⟨_, hsearch⟩, by rw [hfound]; rfl, hread⟩

end Node

end SourceDeps.Script

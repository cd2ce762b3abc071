import Mathlib.Data.List.Forall2
import SourceDeps.Extract.Amd
import SourceDeps.Proofs.Script.Call
import SourceDeps.Proofs.Script.Place

/-! Which calls count is said of places, what a call gives by rules on its arguments; the pruned
walk and the walks inside the functions are shown to come to that. -/

namespace SourceDeps.Extract.Amd

open SourceDeps.Script

/-- The names that nodes give, one after the other in the order of a walk, taken over all places
below a root that have a property. -/
def Gathers (root : Node) (P : Place → Node → Prop) (Gives : Node → List String → Prop)
    (names : List String) : Prop :=
  ∃ found parts, root.Enumerates P found ∧
    List.Forall₂ (fun (a : Place × Node) part => Gives a.2 part) found parts ∧
    names = parts.flatten

/-- What a call of `require` inside a function gives: the module of a literal or, if arrays count,
the strings of an array. -/
inductive Requires (arrays : Bool) (call : Node) : List String → Prop where
  | literal {first : Node} {rest : List Node} {name : String}
      (hargs : call.callArguments = first :: rest) (hname : first.stringValue? = some name) :
      Requires arrays call [name]
  | list {first : Node} {rest : List Node} (hargs : call.callArguments = first :: rest)
      (harray : first.kind = .array) :
      Requires arrays call (if arrays then first.arrayStrings else [])
  | other (hother : ∀ first, call.callArguments.head? = some first →
      first.stringValue? = none ∧ first.kind ≠ .array) : Requires arrays call []

/-- What is required at or below a node. -/
def InnerRequires (arrays : Bool) (f : Node) (names : List String) : Prop :=
  Gathers f (fun _ n => n.isCallOf "require" = true) (Requires arrays) names

/-- What functions require that run later: nothing, if that is to be left out. -/
def LazilyRequire (options : AmdOptions) (fs : List Node) (names : List String) : Prop :=
  if options.skipLazyLoaded then names = []
  else ∃ parts, List.Forall₂ (InnerRequires true) fs parts ∧ names = parts.flatten

/-- The arguments of a definition without its name, a literal that further arguments follow. -/
inductive Unnamed : List Node → List Node → Prop where
  | named {name second : Node} {rest : List Node} (hname : name.stringValue?.isSome = true) :
      Unnamed (name :: second :: rest) (second :: rest)
  | other {args : List Node} (hargs : args.length ≤ 1 ∨
      ∀ first, args.head? = some first → first.stringValue? = none) : Unnamed args args

/-- What an AMD call gives by itself. -/
inductive Contributes (options : AmdOptions) (call : Node) : List String → Prop where
  | driver {list : Node} {rest : List Node} {names : List String}
      (hcall : call.isCallOf "require" = true) (hargs : call.callArguments = list :: rest)
      (harray : list.kind = .array)
      (hlazy : LazilyRequire options (rest.filter Node.isFunctionLike) names) :
      Contributes options call (list.arrayStrings ++ names)
  | list {args : List Node} {list : Node} {names : List String}
      (hcall : call.isCallOf "define" = true) (hargs : Unnamed call.callArguments args)
      (hlist : args.find? Node.isArray = some list)
      (hlazy : LazilyRequire options (args.find? Node.isFunctionLike).toList names) :
      Contributes options call (list.arrayStrings ++ names)
  | factory {args : List Node} {f : Node} {names : List String}
      (hcall : call.isCallOf "define" = true) (hargs : Unnamed call.callArguments args)
      (hlist : args.find? Node.isArray = none) (hfactory : args.find? Node.isFunctionLike = some f)
      (hinner : InnerRequires (!options.skipLazyLoaded) f names) :
      Contributes options call names
  | nothing {args : List Node} (hcall : call.isCallOf "define" = true)
      (hargs : Unnamed call.callArguments args) (hlist : args.find? Node.isArray = none)
      (hfactory : args.find? Node.isFunctionLike = none) : Contributes options call []

/-- A call `define(...)`, or `require` with an array as its first argument. -/
def IsAmdCall (n : Node) : Prop :=
  n.isCallOf "define" = true ∨ n.isCallOf "require" = true ∧
    ∃ list, n.callArguments.head? = some list ∧ list.kind = .array

/-- An AMD call is handled if it lies inside no other call that is handled. -/
def Handled (root : Node) (p : Place) : Prop :=
  (∃ n, root.nodeAt? p = some n ∧ IsAmdCall n) ∧
    ∀ q, q <+: p → (_ : q.length < p.length) → ¬Handled root q
termination_by p.length

theorem length_lt_of_prefix_ne {q p : Place} (h : q <+: p) (hne : q ≠ p) :
    q.length < p.length :=
  Nat.lt_of_le_of_ne h.length_le fun he => hne (h.eq_of_length he)

/-- The handled calls are the outermost AMD calls. -/
theorem handled_iff {root n : Node} {p : Place} (hn : root.nodeAt? p = some n) :
    Handled root p ↔ IsAmdCall n ∧ Node.AllAbove (fun m => ¬IsAmdCall m) root p := by
  rw [Handled]
  constructor
  · rintro ⟨⟨m, hm, hcall⟩, hnone⟩
    obtain rfl : n = m := Option.some.inj (hn.symm.trans hm)
    refine ⟨hcall, fun q => ?_⟩
    -- An AMD call above would be handled, unless another one above it is.
    induction hlen : q.length using Nat.strongRecOn generalizing q with
    | ind l ih =>
      subst hlen
      intro k hq hne hk hcallk
      apply hnone q hq (length_lt_of_prefix_ne hq hne)
      rw [Handled]
      refine ⟨⟨k, hk, hcallk⟩, fun r hr hlt hhandled => ?_⟩
      rw [Handled] at hhandled
      obtain ⟨⟨j, hj, hcallj⟩, -⟩ := hhandled
      refine ih r.length hlt r rfl j (hr.trans hq) ?_ hj hcallj
      intro he
      have hle := (he ▸ hq).length_le
      omega
  · -- With no AMD call above there is none that is handled.
    rintro ⟨hcall, habove⟩
    refine ⟨⟨n, hn, hcall⟩, fun q hq hlt hhandled => ?_⟩
    rw [Handled] at hhandled
    obtain ⟨⟨m, hm, hcallm⟩, -⟩ := hhandled
    refine habove q m hq ?_ hm hcallm
    rintro rfl
    exact absurd hlt (Nat.lt_irrefl _)

theorem isHandled_iff {n : Node} : isHandled n = true ↔ IsAmdCall n := by
  rw [isHandled, Bool.or_eq_true, driverArguments?]
  refine or_congr_right ?_
  cases n.isCallOf "require" with
  | false => simp
  | true =>
    cases n.callArguments with
    | nil => simp
    | cons first rest =>
      cases h : first.isArray <;> simp_all [Node.isArray]

theorem enumerates_handled (root : Node) :
    root.Enumerates (fun p _ => Handled root p)
      ((root.met fun n => !isHandled n).filter fun (_, n) => isHandled n) where
  mem_iff p n := by
    rw [(Node.enumerates_filter_met (fun n => !isHandled n) root isHandled).mem_iff]
    refine and_congr_right fun hn => ?_
    rw [handled_iff hn, and_comm, isHandled_iff]
    simp only [Bool.not_eq_true', ← Bool.not_eq_true, isHandled_iff]
  pairwise := (Node.enumerates_filter_met _ root isHandled).pairwise

theorem gathers_flatMap {root : Node} {P : Place → Node → Prop} {found : List (Place × Node)}
    (Gives : Node → List String → Prop) (give : Node → List String)
    (hfound : root.Enumerates P found) (hgive : ∀ a ∈ found, Gives a.2 (give a.2)) :
    Gathers root P Gives (found.flatMap fun a => give a.2) := by
  refine ⟨found, found.map fun a => give a.2, hfound, ?_, List.flatMap_def⟩
  rw [List.forall₂_map_right_iff, List.forall₂_same]
  exact hgive

theorem requires_requiredBy (arrays : Bool) {n : Node} (h : n.isCallOf "require" = true) :
    Requires arrays n (requiredBy arrays n) := by
  rw [requiredBy, if_pos h]
  cases hargs : n.callArguments with
  | nil => exact .other (by simp [hargs])
  | cons first rest =>
    by_cases harray : first.kind = .array
    · have hrequires : Requires arrays n (if arrays then first.arrayStrings else []) :=
        .list hargs harray
      simpa [Node.isArray, harray] using hrequires
    · cases hname : first.stringValue? with
      | some name =>
        have hrequires : Requires arrays n [name] := .literal hargs hname
        simpa [Node.isArray, harray, hname] using hrequires
      | none =>
        have hrequires : Requires arrays n [] := .other (by simp [hargs, hname, harray])
        simpa [Node.isArray, harray, hname] using hrequires

theorem requiredBy_eq_nil (arrays : Bool) {n : Node} (h : n.isCallOf "require" = false) :
    requiredBy arrays n = [] := by
  rw [requiredBy, if_neg (by simp [h])]

theorem innerRequires_eq (arrays : Bool) (f : Node) : innerRequires arrays f =
    ((f.met fun _ => true).filter fun (_, n) => n.isCallOf "require").flatMap
      fun a => requiredBy arrays a.2 :=
  Node.flatMap_walked_eq _ (fun _ => requiredBy_eq_nil arrays) f

theorem innerRequires_spec (arrays : Bool) (f : Node) :
    InnerRequires arrays f (innerRequires arrays f) := by
  rw [innerRequires_eq]
  apply gathers_flatMap (Requires arrays) (requiredBy arrays)
  · exact Node.enumerates_filter_met_true f fun n => n.isCallOf "require"
  · intro a ha
    exact requires_requiredBy arrays (List.mem_filter.mp ha).2

theorem lazilyRequire_spec (options : AmdOptions) (fs : List Node) :
    LazilyRequire options fs
      (if options.skipLazyLoaded then [] else fs.flatMap (innerRequires true)) := by
  rw [LazilyRequire]
  cases options.skipLazyLoaded with
  | true => rfl
  | false =>
    refine ⟨fs.map (innerRequires true), ?_, List.flatMap_def⟩
    rw [List.forall₂_map_right_iff, List.forall₂_same]
    exact fun f _ => innerRequires_spec true f

theorem unnamed_spec (args : List Node) : Unnamed args (unnamed args) := by
  match args with
  | [] => exact .other (.inl (Nat.zero_le 1))
  | [first] => exact .other (.inl (Nat.le_refl 1))
  | first :: second :: rest =>
    rw [unnamed]
    split
    · next h => exact .named h
    · next h =>
      refine .other (.inr fun n hn => ?_)
      obtain rfl : first = n := Option.some.inj hn
      simpa using h

theorem find?_unnamed {test : Node → Bool}
    (htest : ∀ n : Node, n.stringValue?.isSome = true → test n = false) (args : List Node) :
    (unnamed args).find? test = args.find? test := by
  match args with
  | [] => rfl
  | [first] => rfl
  | first :: second :: rest =>
    rw [unnamed]
    split
    · next h => rw [List.find?_cons_of_neg (a := first) (by simp [htest first h])]
    · rfl

/-- Leaving out the name of a definition, a literal, loses neither its list nor its function. -/
theorem find?_isArray_unnamed (args : List Node) :
    (unnamed args).find? Node.isArray = args.find? Node.isArray :=
  find?_unnamed (fun _ => Node.isArray_of_stringValue?) args

theorem find?_isFunctionLike_unnamed (args : List Node) :
    (unnamed args).find? Node.isFunctionLike = args.find? Node.isFunctionLike :=
  find?_unnamed (fun _ => Node.isFunctionLike_of_stringValue?) args

theorem contributes_contribution (options : AmdOptions) {n : Node} (h : IsAmdCall n) :
    Contributes options n (contribution options n) := by
  rw [contribution]
  by_cases hdefine : n.isCallOf "define" = true
  · have hargs := unnamed_spec n.callArguments
    have hlazy := lazilyRequire_spec options
    rw [if_pos hdefine, ofDefine]
    cases hlist : (unnamed n.callArguments).find? Node.isArray with
    | some list =>
      -- With a list, a function only adds what it requires lazily.
      have hcontributes := Contributes.list hdefine hargs hlist (hlazy _)
      cases hfactory : (unnamed n.callArguments).find? Node.isFunctionLike with
      | some f =>
        simpa only [hfactory, Option.toList_some, List.flatMap_singleton] using hcontributes
      | none =>
        simpa only [hfactory, Option.toList_none, List.flatMap_nil, ite_self, List.append_nil]
          using hcontributes
    | none =>
      cases hfactory : (unnamed n.callArguments).find? Node.isFunctionLike with
      | some f =>
        exact .factory hdefine hargs hlist hfactory (innerRequires_spec _ f)
      | none => exact .nothing hdefine hargs hlist hfactory
  · rw [if_neg hdefine]
    obtain ⟨hrequire, list, hhead, harray⟩ := h.resolve_left hdefine
    obtain ⟨rest, hargs⟩ := List.head?_eq_some_iff.mp hhead
    have hdriver : driverArguments? n = some (list, rest) := by
      simp [driverArguments?, hrequire, hargs, Node.isArray, harray]
    rw [hdriver]
    exact .driver hrequire hargs harray (lazilyRequire_spec options _)

theorem contribution_eq_nil (options : AmdOptions) {n : Node} (h : isHandled n = false) :
    contribution options n = [] := by
  rw [isHandled, Bool.or_eq_false_iff, Option.isSome_eq_false_iff, Option.isNone_iff_eq_none] at h
  rw [contribution, h.1, h.2]
  rfl

/-- The pruned walk asks every node that it meets, and those that are no AMD calls give nothing. -/
theorem mentioned_eq (options : AmdOptions) (t : Script.Tree) : mentioned options t =
    ((t.root.met fun n => !isHandled n).filter fun (_, n) => isHandled n).flatMap
      fun a => contribution options a.2 :=
  Node.flatMap_walked_eq _ (fun _ => contribution_eq_nil options) t.root

theorem foldl_distinct (found names : List String) :
    names.foldl (fun found name =>
        if pseudoModules.contains name || found.contains name then found else found ++ [name])
      found =
      found ++ (names.filter fun name =>
        !pseudoModules.contains name && !found.contains name).eraseDups := by
  -- What is found so far grows along the names, so the induction is for all of it at once.
  induction names generalizing found with
  | nil => simp
  | cons name names ih =>
    rw [List.foldl_cons, ih, List.filter_cons]
    cases hpseudo : pseudoModules.contains name with
    | true => simp
    | false =>
      cases hfound : found.contains name with
      | true => simp
      | false =>
        -- The name is new: from here on it counts as found.
        simp only [Bool.or_self, Bool.false_eq_true, ↓reduceIte, Bool.not_false, Bool.and_self,
          List.eraseDups_cons, List.append_assoc, List.singleton_append, List.filter_filter]
        congr 3
        refine List.filter_congr fun other _ => ?_
        simp only [List.contains_append, List.contains_cons, List.contains_nil, Bool.or_false,
          Bool.not_or]
        cases pseudoModules.contains other <;> cases found.contains other <;> simp

theorem distinct_eq (names : List String) :
    distinct names = (names.filter fun name => !pseudoModules.contains name).eraseDups := by
  rw [distinct, foldl_distinct, List.nil_append]
  simp

/-- On a tree, the AMD extractor succeeds and reports what the handled calls give, in the order of
a walk, without the names of the module system and each name only where it is first given. -/
theorem extract_gathers_handled (options : AmdOptions) (t : Script.Tree) :
    ∃ names, Gathers t.root (fun p _ => Handled t.root p) (Contributes options) names ∧
      extract options (.tree (.script t)) =
        .ok ⟨(names.filter (· ∉ pseudoModules)).eraseDups, none⟩ := by
  have hgathers := gathers_flatMap (Contributes options) (contribution options)
    (enumerates_handled t.root) fun a ha =>
      contributes_contribution options (isHandled_iff.mp (List.mem_filter.mp ha).2)
  refine ⟨mentioned options t, mentioned_eq options t ▸ hgathers, ?_⟩
  have hdistinct : dependencies options t =
      ((mentioned options t).filter (· ∉ pseudoModules)).eraseDups := by
    rw [dependencies, distinct_eq]
    congr 2
    funext name
    simp
  rw [← hdistinct]
  rfl

end SourceDeps.Extract.Amd

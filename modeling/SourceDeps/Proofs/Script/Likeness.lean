import Mathlib.Data.List.Forall2
import SourceDeps.Proofs.Script.Call
import SourceDeps.Proofs.Script.Walk

namespace SourceDeps.Script

theorem rel_find? {α β : Type} {R : α → β → Prop} {p : α → Bool} {q : β → Bool} {as : List α}
    {bs : List β} (h : List.Forall₂ R as bs) (hpq : ∀ a b, R a b → p a = q b) :
    Option.Rel R (as.find? p) (bs.find? q) := by
  induction h with
  | nil => exact .none
  | @cons a b as bs hab _ ih =>
    rw [List.find?_cons, List.find?_cons, ← hpq a b hab]
    cases p a with
    | true => exact .some hab
    | false => exact ih

namespace Node

/-- Two nodes of one kind that are the same part of their parents and, if they are names, the same
name. Other texts may differ, since a template that holds more than text keeps that in its text. -/
structure SameRole (m n : Node) : Prop where
  kind : m.kind = n.kind
  field : m.field = n.field
  name : m.kind = .identifier → m.text = n.text

/-- Two nodes that are the same but for where they stand and what is below them. -/
structure SameHead (m n : Node) : Prop extends SameRole m n where
  text : m.text = n.text

theorem SameRole.isArgument_eq {m n : Node} (h : SameRole m n) : m.isArgument = n.isArgument := by
  rw [isArgument, isArgument, h.kind]

theorem SameRole.isArray_eq {m n : Node} (h : SameRole m n) : m.isArray = n.isArray := by
  rw [isArray, isArray, h.kind]

theorem SameRole.isFunctionLike_eq {m n : Node} (h : SameRole m n) :
    m.isFunctionLike = n.isFunctionLike := by
  rw [isFunctionLike, isFunctionLike, h.kind]

/-- Calls with the same callee call the same name. -/
theorem isCallOf_eq {R : Node → Node → Prop} (hrole : ∀ c d, R c d → SameRole c d) {m n : Node}
    (hkind : m.kind = n.kind)
    (hcallee : Option.Rel R (m.child? .function) (n.child? .function)) (name : String) :
    m.isCallOf name = n.isCallOf name := by
  have hname : m.calleeName? = n.calleeName? := by
    rw [calleeName?, calleeName?, hkind]
    generalize m.child? .function = found at hcallee
    generalize n.child? .function = found' at hcallee
    cases hcallee with
    | none => rfl
    | @some c d hcd =>
      have hsame := hrole c d hcd
      by_cases hidentifier : c.kind = .identifier
      · simp only [← hsame.kind, hsame.name hidentifier]
      · -- What is no name is not read.
        simp only [← hsame.kind, if_neg hidentifier]
  rw [isCallOf, isCallOf, hname]

/-- A relation between nodes that a walk carries on to what it gathers from them: the walk goes
below both of two related nodes or below none, the lists that they give are related, and so are
their children one by one, but for children of the first from which nothing is gathered. -/
structure Simulates {α : Type} (R : Node → Node → Prop) (S : List α → List α → Prop)
    (descend : Node → Bool) (give : Node → List α) : Prop where
  nil : S [] []
  append : ∀ {as bs cs ds}, S as bs → S cs ds → S (as ++ cs) (bs ++ ds)
  descend_eq : ∀ {m n}, R m n → descend m = descend n
  give_rel : ∀ {m n}, R m n → S (give m) (give n)
  children_rel : ∀ {m n}, R m n → descend m = true → ∃ keep : Node → Bool,
    List.Forall₂ R (m.children.filter keep) n.children ∧
      ∀ c ∈ m.children, keep c = false → (c.walked descend).flatMap give = []

namespace Simulates

variable {α : Type} {R : Node → Node → Prop} {S : List α → List α → Prop}
  {descend : Node → Bool} {give : Node → List α}

theorem flatMap_rel (h : Simulates R S descend give) {f : Node → List α} {ms ns : List Node}
    (hmn : List.Forall₂ R ms ns) (hf : ∀ m ∈ ms, ∀ n, R m n → S (f m) (f n)) :
    S (ms.flatMap f) (ns.flatMap f) := by
  induction hmn with
  | nil => exact h.nil
  | @cons m n ms ns hmn _ ih =>
    rw [List.flatMap_cons, List.flatMap_cons]
    apply h.append
    · exact hf m List.mem_cons_self n hmn
    · exact ih fun k hk => hf k (List.mem_cons_of_mem m hk)

theorem flatMap_walked (h : Simulates R S descend give) {m n : Node} (hmn : R m n) :
    S ((m.walked descend).flatMap give) ((n.walked descend).flatMap give) := by
  -- By the first tree: the second has no more nodes than have a partner in it.
  induction m using induct generalizing n with
  | step m ih =>
    rw [walked_eq, walked_eq descend n, ← h.descend_eq hmn, List.flatMap_cons, List.flatMap_cons]
    apply h.append (h.give_rel hmn)
    cases hdescend : descend m with
    | false => exact h.nil
    | true =>
      obtain ⟨keep, hkept, hdropped⟩ := h.children_rel hmn hdescend
      have hsame : (m.children.filter keep).flatMap (fun c => (c.walked descend).flatMap give) =
          m.children.flatMap fun c => (c.walked descend).flatMap give := by
        apply flatMap_filter_eq
        exact hdropped
      rw [if_pos rfl, if_pos rfl, List.flatMap_assoc, List.flatMap_assoc, ← hsame]
      apply h.flatMap_rel hkept
      intro c hc d hcd
      exact ih c (List.mem_of_mem_filter hc) hcd

end Simulates

end Node

end SourceDeps.Script

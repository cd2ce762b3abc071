import SourceDeps.Proofs.Script.Walk

/-! Places in a tree are the numbers of the children to go to, level by level. Equal nodes can stand
at several places, so that what is said of every node once is said of places. -/

namespace SourceDeps.Script

/-- A place in a tree: from the root, which child to go to at each level. -/
abbrev Place := List Nat

namespace Node

/-- The node at a place, if the tree has that place. -/
def nodeAt? (n : Node) : Place → Option Node
  | [] => some n
  | i :: p => n.children[i]?.bind fun c => c.nodeAt? p

theorem nodeAt?_cons_eq_some {n m : Node} {i : Nat} {p : Place} :
    n.nodeAt? (i :: p) = some m ↔ ∃ c, n.children[i]? = some c ∧ c.nodeAt? p = some m := by
  rw [nodeAt?, Option.bind_eq_some_iff]

theorem nodeAt?_append (n : Node) (p q : Place) :
    n.nodeAt? (p ++ q) = (n.nodeAt? p).bind fun m => m.nodeAt? q := by
  induction p generalizing n with
  | nil => rfl
  | cons i p ih =>
    rw [List.cons_append, nodeAt?, nodeAt?]
    cases n.children[i]? with
    | none => rfl
    | some c => exact ih c

/-- Whether all nodes above a place satisfy a test. -/
def AllAbove (test : Node → Prop) (n : Node) (p : Place) : Prop :=
  ∀ q m, q <+: p → q ≠ p → n.nodeAt? q = some m → test m

theorem allAbove_nil (test : Node → Prop) (n : Node) : AllAbove test n [] := by
  intro q m hq hne _
  exact absurd (List.prefix_nil.mp hq) hne

theorem allAbove_cons {test : Node → Prop} {n c : Node} {i : Nat} {p : Place}
    (hc : n.children[i]? = some c) :
    AllAbove test n (i :: p) ↔ test n ∧ AllAbove test c p := by
  constructor
  · intro h
    refine ⟨h [] n List.nil_prefix (List.cons_ne_nil i p).symm rfl, ?_⟩
    intro q m hq hne hm
    refine h (i :: q) m (List.cons_prefix_cons.mpr ⟨rfl, hq⟩) ?_ ?_
    · exact fun he => hne (List.cons.inj he).2
    · exact nodeAt?_cons_eq_some.mpr ⟨c, hc, hm⟩
  · rintro ⟨hn, h⟩ q m hq hne hm
    cases q with
    | nil => exact Option.some.inj hm ▸ hn
    | cons j q =>
      obtain ⟨rfl, hqp⟩ := List.cons_prefix_cons.mp hq
      obtain ⟨d, hd, hmd⟩ := nodeAt?_cons_eq_some.mp hm
      obtain rfl : c = d := Option.some.inj (hc.symm.trans hd)
      exact h q m hqp (fun he => hne (congrArg (j :: ·) he)) hmd

mutual

/-- The places and nodes that a walk meets which goes below those that satisfy a test. -/
def met (descend : Node → Bool) : Node → List (Place × Node)
  | mk kind field span text missing faulty children =>
    ([], mk kind field span text missing faulty children) ::
      if descend (mk kind field span text missing faulty children) then metFrom descend 0 children
      else []

/-- The places and nodes that the walk meets at and below children, the first of which has a given
number. -/
def metFrom (descend : Node → Bool) (i : Nat) : List Node → List (Place × Node)
  | [] => []
  | c :: cs => (met descend c).map (fun (p, m) => (i :: p, m)) ++ metFrom descend (i + 1) cs

end

variable (descend : Node → Bool)

theorem met_eq (n : Node) :
    n.met descend = ([], n) :: if descend n then metFrom descend 0 n.children else [] := by
  cases n
  rw [met, children]

theorem map_snd_met (n : Node) : (n.met descend).map Prod.snd = n.walked descend := by
  induction n using induct with
  | step n ih =>
    -- The number of the first child is arbitrary, for the induction on the children.
    have hfrom (i : Nat) : ∀ cs, (∀ c ∈ cs, (c.met descend).map Prod.snd = c.walked descend) →
        (metFrom descend i cs).map Prod.snd = cs.flatMap (walked descend) := by
      intro cs
      induction cs generalizing i with
      | nil => intro _; rfl
      | cons c cs ihcs =>
        intro h
        rw [metFrom, List.map_append, List.map_map, List.flatMap_cons, ← h c List.mem_cons_self,
          ihcs (i + 1) fun d hd => h d (List.mem_cons_of_mem c hd)]
        rfl
    rw [met_eq, walked_eq, List.map_cons]
    cases descend n with
    | false => rfl
    | true => exact congrArg (n :: ·) (hfrom 0 n.children ih)

theorem mem_metFrom {i : Nat} {cs : List Node} {q : Place} {m : Node} :
    (q, m) ∈ metFrom descend i cs ↔
      ∃ j p c, q = (i + j) :: p ∧ cs[j]? = some c ∧ (p, m) ∈ c.met descend := by
  induction cs generalizing i with
  | nil => simp [metFrom]
  | cons c cs ih =>
    rw [metFrom, List.mem_append, List.mem_map, ih]
    constructor
    · rintro (⟨⟨p, k⟩, hp, he⟩ | ⟨j, p, d, rfl, hd, hp⟩)
      · cases he
        exact ⟨0, p, c, rfl, rfl, hp⟩
      · refine ⟨j + 1, p, d, ?_, hd, hp⟩
        rw [Nat.add_assoc, Nat.add_comm 1 j]
    · rintro ⟨j, p, d, rfl, hd, hp⟩
      cases j with
      | zero =>
        obtain rfl : c = d := Option.some.inj hd
        exact .inl ⟨(p, m), hp, rfl⟩
      | succ j =>
        refine .inr ⟨j, p, d, ?_, hd, hp⟩
        rw [Nat.add_assoc, Nat.add_comm 1 j]

/-- A walk meets exactly the places above which all nodes satisfy its test. -/
theorem mem_met {n m : Node} {p : Place} :
    (p, m) ∈ n.met descend ↔ n.nodeAt? p = some m ∧ AllAbove (descend · = true) n p := by
  -- By the place, since its first number says below which child the walk goes on.
  induction p generalizing n with
  | nil =>
    rw [met_eq, List.mem_cons]
    constructor
    · rintro (he | hm)
      · cases he
        exact ⟨rfl, allAbove_nil _ _⟩
      · cases hd : descend n with
        | false => simp [hd] at hm
        | true =>
          rw [hd, if_pos rfl, mem_metFrom] at hm
          obtain ⟨j, p, c, he, -⟩ := hm
          cases he
    · rintro ⟨hm, -⟩
      exact .inl (congrArg (([] : Place), ·) (Option.some.inj hm).symm)
  | cons i p ih =>
    rw [met_eq, List.mem_cons, nodeAt?_cons_eq_some]
    constructor
    · rintro (he | hm)
      · cases he
      · cases hd : descend n with
        | false => simp [hd] at hm
        | true =>
          rw [hd, if_pos rfl, mem_metFrom] at hm
          obtain ⟨j, q, c, he, hc, hq⟩ := hm
          obtain ⟨rfl, rfl⟩ := List.cons.inj he
          rw [Nat.zero_add] at *
          obtain ⟨hat, habove⟩ := ih.mp hq
          exact ⟨⟨c, hc, hat⟩, (allAbove_cons hc).mpr ⟨hd, habove⟩⟩
    · rintro ⟨⟨c, hc, hat⟩, habove⟩
      obtain ⟨hd, habove⟩ := (allAbove_cons hc).mp habove
      rw [hd, if_pos rfl, mem_metFrom]
      exact .inr ⟨i, p, c, by rw [Nat.zero_add], hc, ih.mpr ⟨hat, habove⟩⟩

theorem mem_met_true {n m : Node} {p : Place} :
    (p, m) ∈ n.met (fun _ => true) ↔ n.nodeAt? p = some m := by
  rw [mem_met]
  exact and_iff_left fun _ _ _ _ _ => rfl

theorem mem_preorder_iff {n m : Node} : m ∈ n.preorder ↔ ∃ p, n.nodeAt? p = some m := by
  rw [preorder, ← map_snd_met, List.mem_map]
  constructor
  · rintro ⟨⟨p, k⟩, hp, rfl⟩
    exact ⟨p, (mem_met_true).mp hp⟩
  · rintro ⟨p, hp⟩
    exact ⟨(p, m), (mem_met_true).mpr hp, rfl⟩

/-- The places that a walk meets come in lexicographic order, none of them twice. -/
theorem pairwise_met (n : Node) : (n.met descend).Pairwise fun a b => a.1 < b.1 := by
  induction n using induct with
  | step n ih =>
    have hfrom (i : Nat) : ∀ cs, (∀ c ∈ cs, (c.met descend).Pairwise fun a b => a.1 < b.1) →
        (metFrom descend i cs).Pairwise fun a b => a.1 < b.1 := by
      intro cs
      induction cs generalizing i with
      | nil => intro _; exact List.Pairwise.nil
      | cons c cs ihcs =>
        intro h
        rw [metFrom, List.pairwise_append]
        refine ⟨?_, ihcs (i + 1) fun d hd => h d (List.mem_cons_of_mem c hd), ?_⟩
        -- Places below one child begin with the same number, those below later ones with a greater.
        · refine List.pairwise_map.mpr ((h c List.mem_cons_self).imp ?_)
          intro a b hab
          exact List.cons_lt_cons_iff.mpr (.inr ⟨rfl, hab⟩)
        · rintro a ha ⟨q, m⟩ hb
          obtain ⟨⟨p, k⟩, -, rfl⟩ := List.mem_map.mp ha
          obtain ⟨j, q, d, rfl, -⟩ := (mem_metFrom descend).mp hb
          exact List.cons_lt_cons_iff.mpr (.inl (by omega))
    rw [met_eq, List.pairwise_cons]
    cases descend n with
    | false => exact ⟨fun b hb => absurd hb List.not_mem_nil, List.Pairwise.nil⟩
    | true =>
      refine ⟨?_, hfrom 0 n.children ih⟩
      rintro ⟨q, m⟩ hb
      obtain ⟨j, q, d, rfl, -⟩ := (mem_metFrom descend).mp hb
      exact List.nil_lt_cons _ _

/-- The places and nodes are those in the tree with a given property, each once and in the order of
a walk, a node before what is below it and from left to right. -/
structure Enumerates (root : Node) (P : Place → Node → Prop) (found : List (Place × Node)) :
    Prop where
  mem_iff : ∀ p n, (p, n) ∈ found ↔ root.nodeAt? p = some n ∧ P p n
  pairwise : found.Pairwise fun a b => a.1 < b.1

theorem enumerates_filter_met (root : Node) (test : Node → Bool) :
    Enumerates root (fun p n => AllAbove (descend · = true) root p ∧ test n = true)
      ((root.met descend).filter fun (_, n) => test n) where
  mem_iff p n := by rw [List.mem_filter, mem_met, and_assoc]
  pairwise := (pairwise_met descend root).filter _

theorem enumerates_filter_met_true (root : Node) (test : Node → Bool) :
    Enumerates root (fun _ n => test n = true)
      ((root.met fun _ => true).filter fun (_, n) => test n) where
  mem_iff p n := by rw [List.mem_filter, mem_met_true]
  pairwise := (pairwise_met _ root).filter _

/-- What a walk gathers comes from the nodes that pass a test, if the others give nothing. -/
theorem flatMap_walked_eq {α : Type} {test : Node → Bool} {give : Node → List α}
    (h : ∀ n, test n = false → give n = []) (n : Node) :
    (n.walked descend).flatMap give =
      ((n.met descend).filter fun (_, m) => test m).flatMap fun a => give a.2 := by
  rw [flatMap_filter_eq, ← map_snd_met, List.flatMap_map]
  exact fun a _ ha => h a.2 ha

namespace Enumerates

variable {P : Place → Node → Prop} {found found' : List (Place × Node)} {root : Node}

/-- Only one list enumerates the nodes with a property. -/
theorem eq (h : root.Enumerates P found) (h' : root.Enumerates P found') : found = found' := by
  have hnodup {l : List (Place × Node)} (hl : l.Pairwise fun a b => a.1 < b.1) : l.Nodup := by
    refine List.Pairwise.imp ?_ hl
    rintro a b hlt rfl
    exact List.lt_irrefl _ hlt
  have hperm : found.Perm found' := by
    rw [List.perm_ext_iff_of_nodup (hnodup h.pairwise) (hnodup h'.pairwise)]
    rintro ⟨p, n⟩
    rw [h.mem_iff, h'.mem_iff]
  exact hperm.eq_of_pairwise (fun a b _ _ hab hba => absurd hba (List.lt_asymm hab))
    h.pairwise h'.pairwise

/-- If all nodes with a property are at or below one place, they are enumerated from there. -/
theorem below {p : Place} {n : Node} (hn : root.nodeAt? p = some n)
    (h : n.Enumerates (fun q m => P (p ++ q) m) found)
    (hbelow : ∀ q m, root.nodeAt? q = some m → P q m → p <+: q) :
    root.Enumerates P (found.map fun (q, m) => (p ++ q, m)) where
  mem_iff r m := by
    rw [List.mem_map]
    constructor
    · rintro ⟨⟨q, m'⟩, hmem, he⟩
      obtain ⟨rfl, rfl⟩ := Prod.mk.inj he
      obtain ⟨hm, hP⟩ := (h.mem_iff q m').mp hmem
      exact ⟨by rw [nodeAt?_append, hn, Option.bind_some, hm], hP⟩
    · rintro ⟨hm, hP⟩
      obtain ⟨q, rfl⟩ := hbelow r m hm hP
      rw [nodeAt?_append, hn, Option.bind_some] at hm
      exact ⟨(q, m), (h.mem_iff q m).mpr ⟨hm, hP⟩, rfl⟩
  pairwise := List.pairwise_map.mpr (h.pairwise.imp List.append_left_lt)

end Enumerates

end Node

end SourceDeps.Script

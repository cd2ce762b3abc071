import Mathlib.Tactic.ByContra
import SourceDeps.Builtin
import SourceDeps.Proofs.Text.Utf8

namespace SourceDeps.Builtin

open Text

/-- The names of a table ascend, in the order of their bytes. -/
def Ascends (table : Array String) : Prop :=
  table.toList.Pairwise fun a b => utf8 a.toList < utf8 b.toList

instance (table : Array String) : Decidable (Ascends table) :=
  inferInstanceAs (Decidable (table.toList.Pairwise _))

variable {table : Array String} {name : String}

/-- A name stands in a table, between two places. -/
def StandsBetween (table : Array String) (name : String) (low high : Nat) : Prop :=
  ∃ i, low ≤ i ∧ i < high ∧ table[i]? = some name

theorem Ascends.lt {i j : Nat} {a b : String} (h : Ascends table) (hlt : i < j)
    (ha : table[i]? = some a) (hb : table[j]? = some b) : a < b := by
  rw [String.lt_iff, ← utf8_lt_utf8_iff]
  rw [← Array.getElem?_toList] at ha hb
  obtain ⟨hi, rfl⟩ := List.getElem?_eq_some_iff.mp ha
  obtain ⟨hj, rfl⟩ := List.getElem?_eq_some_iff.mp hb
  exact List.pairwise_iff_getElem.mp h i j hi hj hlt

/-- What the search keeps: a name that stands between the two places is found, and no other. -/
theorem searchBetween_iff (h : Ascends table) {low high : Nat} (hhigh : high ≤ table.size) :
    searchBetween table name low high = true ↔ StandsBetween table name low high := by
  fun_induction searchBetween table name low high with
  | case1 low high hlt middle hnone =>
    -- The middle lies inside of the table, so there is an entry.
    have hsize : table.size ≤ middle := Array.getElem?_eq_none_iff.mp hnone
    omega
  | case2 low high hlt middle hentry =>
    refine iff_of_true rfl ⟨middle, ?_, ?_, hentry⟩ <;> omega
  | case3 low high hlt middle entry hentry hne hless ih =>
    rw [ih hhigh]
    constructor
    · rintro ⟨i, hi, hihigh, hname⟩
      exact ⟨i, by omega, hihigh, hname⟩
    · rintro ⟨i, hi, hihigh, hname⟩
      refine ⟨i, ?_, hihigh, hname⟩
      -- Up to the middle no entry is above the entry there, and that one is below the name.
      by_contra hle
      obtain heq | hbefore : i = middle ∨ i < middle := by omega
      · rw [heq, hentry, Option.some.injEq] at hname
        exact hne hname
      · exact String.lt_asymm hless (h.lt hbefore hname hentry)
  | case4 low high hlt middle entry hentry hne hless ih =>
    rw [ih (by omega)]
    constructor
    · rintro ⟨i, hi, himiddle, hname⟩
      exact ⟨i, hi, by omega, hname⟩
    · rintro ⟨i, hi, hihigh, hname⟩
      refine ⟨i, hi, ?_, hname⟩
      by_contra hle
      obtain heq | hbehind : i = middle ∨ middle < i := by omega
      · rw [heq, hentry, Option.some.injEq] at hname
        exact hne hname
      · exact hless (h.lt hbehind hentry hname)
  | case5 low high hnot =>
    refine iff_of_false Bool.false_ne_true ?_
    rintro ⟨i, hi, hihigh, -⟩
    omega

/-- In a table that ascends the search finds the names that stand in it. -/
theorem search_eq_true_iff (h : Ascends table) (name : String) :
    search table name = true ↔ name ∈ table := by
  rw [search, searchBetween_iff h (Nat.le_refl _), Array.mem_iff_getElem?]
  constructor
  · rintro ⟨i, -, -, hname⟩
    exact ⟨i, hname⟩
  · rintro ⟨i, hname⟩
    obtain ⟨hi, -⟩ := Array.getElem?_eq_some_iff.mp hname
    exact ⟨i, Nat.zero_le i, hi, hname⟩

theorem ascends_names : Ascends names := by decide +kernel

/-- An identifier names a module of the runtime if it says so by its beginning or stands in the
table. The search by the order of bytes finds every name of the table and nothing else. -/
theorem isBuiltin_exact (id : String) :
    (isBuiltin id = true ↔ "node:".toList <+: id.toList ∨ id ∈ names) ∧
      Ascends names ∧ (search names id = true ↔ id ∈ names) := by
  have hsearch : search names id = true ↔ id ∈ names := search_eq_true_iff ascends_names id
  refine ⟨?_, ascends_names, hsearch⟩
  rw [isBuiltin, Bool.or_eq_true, String.startsWith_string_iff, hsearch]

end SourceDeps.Builtin

import Mathlib.Data.List.TakeWhile
import SourceDeps.Text.Blank

namespace SourceDeps.Text

/-- All characters are white space. -/
def AllBlank (cs : List Char) : Prop := ∀ c ∈ cs, isBlank c = true

instance (cs : List Char) : Decidable (AllBlank cs) :=
  List.decidableBAll (fun c => isBlank c = true) cs

variable {before cs after : List Char}

theorem trimRight_append_blank (h : AllBlank after) (cs : List Char) :
    trimRight (cs ++ after) = trimRight cs := by
  have hreverse : ∀ c ∈ after.reverse, isBlank c = true := fun c hc => h c (List.mem_reverse.mp hc)
  rw [trimRight, List.reverse_append, List.dropWhile_append_of_pos hreverse, trimRight]

theorem trim_eq_nil_iff : trim cs = [] ↔ AllBlank cs := by
  constructor
  · intro h
    have hright : (cs.dropWhile isBlank).reverse.dropWhile isBlank = [] :=
      List.reverse_eq_nil_iff.mp h
    -- Behind the white space at the start there would be a first character that is none.
    cases hrest : cs.dropWhile isBlank with
    | nil =>
      intro c hc
      exact List.dropWhile_eq_nil_iff.mp hrest c hc
    | cons d ds =>
      have hd : isBlank d = false := by
        have hhead := List.head?_dropWhile_not isBlank cs
        rw [hrest] at hhead
        exact hhead
      rw [hrest] at hright
      have hblank := List.dropWhile_eq_nil_iff.mp hright d (by simp)
      rw [hd] at hblank
      cases hblank
  · intro h
    have hdrop : cs.dropWhile isBlank = [] := List.dropWhile_eq_nil_iff.mpr h
    rw [trim, hdrop]
    rfl

/-- White space around a text does not count. -/
theorem trim_padded (hbefore : AllBlank before) (hafter : AllBlank after) (cs : List Char) :
    trim (before ++ (cs ++ after)) = trim cs := by
  rw [trim, List.dropWhile_append_of_pos hbefore, List.dropWhile_append]
  cases hrest : cs.dropWhile isBlank with
  | nil =>
    have hdrop : after.dropWhile isBlank = [] := List.dropWhile_eq_nil_iff.mpr hafter
    rw [List.isEmpty_nil, if_pos rfl, hdrop, trim, hrest]
  | cons c rest =>
    rw [List.isEmpty_cons, if_neg Bool.false_ne_true, trimRight_append_blank hafter, trim, hrest]

/-- Letters are not white space, in neither case. -/
theorem isBlank_lowerAscii (c : Char) : isBlank (lowerAscii c) = isBlank c := by
  by_cases h : 'A' ≤ c ∧ c ≤ 'Z'
  · have hlow : c.toNat < 128 := Nat.lt_of_le_of_lt h.2 (by decide)
    have hascii : ∀ n < 128, isBlank (lowerAscii (Char.ofNat n)) = isBlank (Char.ofNat n) := by
      decide
    have hc := hascii c.toNat hlow
    rwa [Char.ofNat_toNat] at hc
  · rw [lowerAscii, if_neg h]

theorem trimRight_map_lowerAscii (cs : List Char) :
    trimRight (cs.map lowerAscii) = (trimRight cs).map lowerAscii := by
  have hblank : isBlank ∘ lowerAscii = isBlank := funext isBlank_lowerAscii
  rw [trimRight, ← List.map_reverse, List.dropWhile_map, hblank, trimRight, List.map_reverse]

theorem trim_map_lowerAscii (cs : List Char) :
    trim (cs.map lowerAscii) = (trim cs).map lowerAscii := by
  have hblank : isBlank ∘ lowerAscii = isBlank := funext isBlank_lowerAscii
  rw [trim, List.dropWhile_map, hblank, trimRight_map_lowerAscii, trim]

end SourceDeps.Text

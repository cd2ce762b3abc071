import SourceDeps.Proofs.Stylesheet.Scan
import SourceDeps.Proofs.Stylesheet.Step

/-! Text on one line in which no string, no rule and no block comment begins hides nothing, unless
it has two slashes in a row. Then the rest of the line is taken for a comment, in an address too. -/

namespace SourceDeps.Stylesheet

open SourceDeps.Text

/-- The characters with which no string and no rule begins and no line ends. -/
def isInline (c : Char) : Bool := c != '\x22' && c != '\x27' && c != '@' && c != '\n'

/-- Text on one line in which no string, no rule and no block comment begins, and which does not end
in a slash. -/
structure IsInert (cs : List Char) : Prop where
  inline_chars : ∀ c ∈ cs, isInline c = true
  no_block_comment : ¬ ['/', '*'] <:+: cs
  no_slash_at_end : cs.getLast? ≠ some '/'

/-- Such text in which two slashes in a row stand only right after a colon, as in an address, and
which does not end in a colon. -/
structure IsDeclaration (cs : List Char) : Prop extends IsInert cs where
  slashes_after_colon : ∀ n < cs.length, ['/', '/'] <+: cs.drop n →
    (cs.take n).getLast? = some ':'
  no_colon_at_end : cs.getLast? ≠ some ':'

namespace IsInert

variable {cs : List Char}

theorem lineBreaks_eq_zero (h : IsInert cs) : lineBreaks cs = 0 := by
  refine Stylesheet.lineBreaks_eq_zero fun c hc => ?_
  rintro rfl
  exact Bool.noConfusion (h.inline_chars '\n' hc)

theorem tail {c : Char} (h : IsInert (c :: cs)) : IsInert cs where
  inline_chars d hd := h.inline_chars d (List.mem_cons_of_mem c hd)
  no_block_comment hin := h.no_block_comment (hin.trans (List.suffix_cons c cs).isInfix)
  no_slash_at_end hlast := h.no_slash_at_end (by rw [List.getLast?_cons, hlast, Option.getD_some])

/-- No comment begins at the first character, unless two slashes stand there. -/
theorem passes_first (surface : Surface) {c : Char} (h : IsInert (c :: cs))
    (hslashes : ¬ ['/', '/'] <+: c :: cs) (rest : List Char) :
    Passes surface [c] (cs ++ rest) := by
  have hc : isInline c = true := h.inline_chars c List.mem_cons_self
  simp only [isInline, Bool.and_eq_true, bne_iff_ne] at hc
  obtain ⟨⟨⟨hdouble, hsingle⟩, hat⟩, -⟩ := hc
  refine passes_other surface hat (fun hq => hq.elim hdouble hsingle) ?_
  -- A slash is followed by a character of the text itself, which makes it no comment.
  rintro rfl d hd
  cases cs with
  | nil => exact absurd rfl h.no_slash_at_end
  | cons e cs =>
    obtain rfl : e = d := Option.some.inj hd
    constructor
    · rintro rfl
      exact h.no_block_comment (List.prefix_append ['/', '*'] cs).isInfix
    · rintro rfl
      exact hslashes (List.prefix_append ['/', '/'] cs)

/-- Without two slashes in a row such text is passed over. -/
theorem passes (surface : Surface) (h : IsInert cs) (hslashes : ¬ ['/', '/'] <:+: cs)
    (rest : List Char) : Passes surface cs rest := by
  induction cs with
  | nil => exact fun line byte => rfl
  | cons c cs ih =>
    obtain ⟨hfirst, hcs⟩ := not_or.mp fun hin => hslashes (List.infix_cons_iff.mpr hin)
    exact (h.passes_first surface hfirst rest).append (ih h.tail hcs)

/-- Up to two slashes in a row such text is passed over, and from there on it is a comment together
with the rest of its line. -/
theorem passes_restOfLine (surface : Surface) (h : IsInert cs) (hslashes : ['/', '/'] <:+: cs)
    (rest : List Char) :
    Passes surface (cs ++ (restOfLine rest).taken) (restOfLine rest).rest := by
  induction cs with
  | nil => exact absurd (List.infix_nil.mp hslashes) (List.cons_ne_nil _ _)
  | cons c cs ih =>
    by_cases hfirst : ['/', '/'] <+: c :: cs
    · obtain ⟨right, hright⟩ := hfirst
      have hnewline : '\n' ∉ right := by
        intro hmem
        have hin : '\n' ∈ c :: cs := hright ▸ List.mem_append_right _ hmem
        exact Bool.noConfusion (h.inline_chars '\n' hin)
      have hpass := passes_lineComment surface (right ++ rest)
      rw [restOfLine_append hnewline] at hpass
      rw [← hright]
      exact hpass
    · -- The slashes stand further on, and the first character alone is passed over.
      have hcs : ['/', '/'] <:+: cs := (List.infix_cons_iff.mp hslashes).resolve_left hfirst
      have hpass := h.passes_first surface hfirst rest
      rw [← all_restOfLine rest, Taken.all, ← List.append_assoc] at hpass
      exact hpass.append (ih h.tail hcs)

end IsInert

/-- Inert text in front of a stylesheet hides nothing of it if no two slashes stand in a row, and
otherwise hides exactly the rest of the line. -/
theorem rules_append_inert (surface : Surface) (d r : String) (h : IsInert d.toList) :
    (¬ ['/', '/'] <:+: d.toList → (read surface (d ++ r)).rules = (read surface r).rules) ∧
    (['/', '/'] <:+: d.toList → (read surface (d ++ r)).rules =
      (read surface (String.ofList (restOfLine r.toList).rest)).rules) := by
  have hjoin : d ++ r = String.ofList (d.toList ++ r.toList) := by
    rw [String.ofList_append, String.ofList_toList, String.ofList_toList]
  constructor
  · intro hslashes
    rw [hjoin, (h.passes surface hslashes r.toList).rules_eq h.lineBreaks_eq_zero,
      String.ofList_toList]
  · intro hslashes
    have hsplit : d.toList ++ r.toList =
        d.toList ++ (restOfLine r.toList).taken ++ (restOfLine r.toList).rest := by
      rw [List.append_assoc]
      exact congrArg (d.toList ++ ·) (all_restOfLine r.toList).symm
    have hbreaks : lineBreaks (d.toList ++ (restOfLine r.toList).taken) = 0 := by
      rw [lineBreaks_append, h.lineBreaks_eq_zero, lineBreaks_restOfLine]
    rw [hjoin, hsplit, (h.passes_restOfLine surface hslashes r.toList).rules_eq hbreaks]

/-- A declaration with an address. -/
def addressText : String := "a{b:url(http://c)}"

theorem isDeclaration_addressText : IsDeclaration addressText.toList where
  inline_chars := List.all_eq_true.mp (by decide +kernel)
  no_block_comment := by decide +kernel
  no_slash_at_end := by decide +kernel
  slashes_after_colon := by decide +kernel
  no_colon_at_end := by decide +kernel

/-- The rule on the line of the address is lost, and the one on the next line is found. -/
theorem addressText_hides_line :
    IsInert addressText.toList ∧ ['/', '/'] <:+: addressText.toList ∧
    (read .scss (addressText ++ "@use 'd';\n@use 'e';")).rules = [⟨"use", "'e';", ["e"], 2⟩] := by
  have hinert : IsInert addressText.toList := isDeclaration_addressText.toIsInert
  have hslashes : ['/', '/'] <:+: addressText.toList := by decide +kernel
  refine ⟨hinert, hslashes, ?_⟩
  rw [(rules_append_inert .scss addressText "@use 'd';\n@use 'e';" hinert).2 hslashes]
  decide +kernel

/-- A declaration with an address hides a rule behind it. -/
theorem addressText_hides_rule :
    IsDeclaration addressText.toList ∧
    (read .scss (addressText ++ "@use 'd';")).rules = [] ∧
    (read .scss "@use 'd';").rules = [⟨"use", "'d';", ["d"], 1⟩] :=
  ⟨isDeclaration_addressText, by decide +kernel, by decide +kernel⟩

end SourceDeps.Stylesheet

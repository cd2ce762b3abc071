import SourceDeps.Stylesheet.Scan

namespace SourceDeps.Stylesheet

/-- The bodies of strings that run up to their quote: characters other than that quote, a backslash
and a line break, and any characters behind backslashes. -/
inductive StringBody (quote : Char) : List Char → Prop where
  | nil : StringBody quote []
  | plain {c : Char} {cs : List Char} (h : c ≠ quote ∧ c ≠ '\\' ∧ c ≠ '\n') :
      StringBody quote cs → StringBody quote (c :: cs)
  | escaped (c : Char) {cs : List Char} : StringBody quote cs → StringBody quote ('\\' :: c :: cs)

theorem StringBody.of_forall {quote : Char} {cs : List Char}
    (h : ∀ c ∈ cs, c ≠ quote ∧ c ≠ '\\' ∧ c ≠ '\n') : StringBody quote cs := by
  induction cs with
  | nil => exact .nil
  | cons c cs ih =>
    exact .plain (h c List.mem_cons_self) (ih fun d hd => h d (List.mem_cons_of_mem c hd))

theorem quoted_cons {quote c : Char} (h : c ≠ '\\') (cs : List Char) :
    quoted quote (c :: cs) =
      if c = quote then ⟨[c], cs⟩
      else if c = '\n' then ⟨[], c :: cs⟩
      else (quoted quote cs).push c :=
  quoted.eq_4 quote c cs (fun hc _ => h hc) (fun _ _ hc _ => h hc)

/-- Up to its end a string is taken whole, whatever follows. -/
theorem quoted_append {quote : Char} {body : List Char} (h : StringBody quote body)
    (rest : List Char) :
    quoted quote (body ++ rest) =
      ⟨body ++ (quoted quote rest).taken, (quoted quote rest).rest⟩ := by
  induction h with
  | nil => rfl
  | @plain c cs hc _ ih =>
    rw [List.cons_append, quoted_cons hc.2.1, if_neg hc.1, if_neg hc.2.2, ih]
    rfl
  | @escaped c cs _ ih =>
    rw [List.cons_append, List.cons_append, quoted, ih]
    rfl

theorem quoted_closed {quote : Char} (hquote : quote ≠ '\\') {body : List Char}
    (h : StringBody quote body) (rest : List Char) :
    quoted quote (body ++ quote :: rest) = ⟨body ++ [quote], rest⟩ := by
  rw [quoted_append h, quoted_cons hquote, if_pos rfl]

theorem quoted_open {quote : Char} (hquote : quote ≠ '\n') {body : List Char}
    (h : StringBody quote body) (rest : List Char) :
    quoted quote (body ++ '\n' :: rest) = ⟨body, '\n' :: rest⟩ := by
  rw [quoted_append h, quoted_cons (by decide), if_neg hquote.symm, if_pos rfl, List.append_nil]

theorem blockComment_closed {body : List Char} (h : ¬ ['*', '/'] <:+: body) (rest : List Char) :
    blockComment (body ++ '*' :: '/' :: rest) = ⟨body ++ ['*', '/'], rest⟩ := by
  induction body with
  | nil => rw [List.nil_append, blockComment, List.nil_append]
  | cons c body ih =>
    have hbody : ¬ ['*', '/'] <:+: body := fun hin =>
      h (hin.trans (List.suffix_cons c body).isInfix)
    rw [List.cons_append, blockComment.eq_2, ih hbody]
    · rfl
    · -- The closing mark does not begin at the first character, since it would lie in the body.
      rintro ds rfl hds
      cases body with
      | nil => exact absurd (List.head_eq_of_cons_eq hds) (by decide)
      | cons d body =>
        obtain rfl : d = '/' := List.head_eq_of_cons_eq hds
        exact h (List.prefix_append ['*', '/'] body).isInfix

theorem restOfLine_line {body : List Char} (h : '\n' ∉ body) (rest : List Char) :
    restOfLine (body ++ '\n' :: rest) = ⟨body, '\n' :: rest⟩ := by
  induction body with
  | nil => rw [List.nil_append, restOfLine]
  | cons c body ih =>
    obtain ⟨hc, hbody⟩ := List.ne_and_not_mem_of_not_mem_cons h
    rw [List.cons_append, restOfLine.eq_2, ih hbody]
    · rfl
    · exact fun hnewline => hc hnewline.symm

theorem restOfLine_append {cs : List Char} (h : '\n' ∉ cs) (rest : List Char) :
    restOfLine (cs ++ rest) = ⟨cs ++ (restOfLine rest).taken, (restOfLine rest).rest⟩ := by
  induction cs with
  | nil => rfl
  | cons c cs ih =>
    obtain ⟨hc, hcs⟩ := List.ne_and_not_mem_of_not_mem_cons h
    rw [List.cons_append, restOfLine.eq_2, ih hcs]
    · rfl
    · exact fun hnewline => hc hnewline.symm

theorem toNat_of_isNameChar {c : Char} (h : isNameChar c = true) :
    45 ≤ c.val.toNat ∧ c.val.toNat ≤ 122 := by
  have hrange : ∀ low high, 45 ≤ low → high ≤ 122 → low ≤ c.val.toNat ∧ c.val.toNat ≤ high →
      45 ≤ c.val.toNat ∧ c.val.toNat ≤ 122 := by
    omega
  delta isNameChar Char.isAlphanum Char.isAlpha Char.isUpper Char.isLower Char.isDigit at h
  simp only [Bool.or_eq_true, Bool.and_eq_true, decide_eq_true_eq, beq_iff_eq,
    UInt32.le_iff_toNat_le, ge_iff_le] at h
  obtain (((hupper | hlower) | hdigit) | rfl) | rfl := h
  · exact hrange _ _ (by decide) (by decide) hupper
  · exact hrange _ _ (by decide) (by decide) hlower
  · exact hrange _ _ (by decide) (by decide) hdigit
  · decide
  · decide

theorem ruleName_append {name rest : List Char} (hname : ∀ c ∈ name, isNameChar c = true)
    (hrest : ∀ c, rest.head? = some c → isNameChar c = false) :
    ruleName (name ++ rest) = ⟨name, rest⟩ := by
  induction name with
  | nil =>
    cases rest with
    | nil => rfl
    | cons c rest =>
      have hc : isNameChar c = false := hrest c rfl
      rw [List.nil_append, ruleName, hc, if_neg Bool.false_ne_true]
  | cons c name ih =>
    rw [List.cons_append, ruleName, if_pos (hname c List.mem_cons_self),
      ih fun d hd => hname d (List.mem_cons_of_mem c hd)]
    rfl

variable (surface : Surface)

/-- Outside parentheses a prelude takes some characters, whatever is before and after them. -/
def TakesWhole (cs : List Char) : Prop :=
  ∀ previous rest, ∃ next, prelude surface 0 previous (cs ++ rest) =
    ⟨cs ++ (prelude surface 0 next rest).taken, (prelude surface 0 next rest).rest⟩

variable {surface}

theorem TakesWhole.nil : TakesWhole surface [] := fun previous _ => ⟨previous, rfl⟩

theorem TakesWhole.append {cs ds : List Char} (hcs : TakesWhole surface cs)
    (hds : TakesWhole surface ds) : TakesWhole surface (cs ++ ds) := by
  intro previous rest
  obtain ⟨middle, hfirst⟩ := hcs previous (ds ++ rest)
  obtain ⟨next, hsecond⟩ := hds middle rest
  refine ⟨next, ?_⟩
  rw [List.append_assoc, hfirst, hsecond, List.append_assoc]

theorem TakesWhole.singleton {c : Char} (hquote : ¬(c = '\x22' ∨ c = '\x27'))
    (hmark : c ∉ ['/', '(', ')', ';', '\x7b', '\x7d'])
    (hnewline : ¬(c = '\n' ∧ surface.newlineEnds = true)) : TakesWhole surface [c] := by
  intro previous rest
  refine ⟨c, ?_⟩
  simp only [List.mem_cons, List.not_mem_nil, or_false, not_or] at hmark
  obtain ⟨hslash, hopen, hclose, hsemicolon, hleft, hright⟩ := hmark
  rw [List.singleton_append, prelude, if_neg hquote, if_neg fun h => hslash h.1,
    if_neg fun h => hslash h.1, if_neg hopen, if_neg hclose, if_neg fun h => hsemicolon h.1,
    if_neg fun h => h.1.elim hleft hright, if_neg fun h => hnewline ⟨h.1, h.2.2⟩]
  rfl

theorem TakesWhole.of_forall {cs : List Char} (h : ∀ c ∈ cs, TakesWhole surface [c]) :
    TakesWhole surface cs := by
  induction cs with
  | nil => exact .nil
  | cons c cs ih =>
    exact (h c List.mem_cons_self).append (ih fun d hd => h d (List.mem_cons_of_mem c hd))

theorem TakesWhole.string {quote : Char} (hquote : quote = '\x22' ∨ quote = '\x27')
    {body : List Char} (h : StringBody quote body) :
    TakesWhole surface (quote :: (body ++ [quote])) := by
  intro previous rest
  have hclosed : quoted quote (body ++ quote :: rest) = ⟨body ++ [quote], rest⟩ :=
    quoted_closed (by rcases hquote with rfl | rfl <;> decide) h rest
  refine ⟨quote, ?_⟩
  have hlast : (quote :: (body ++ [quote])).getLast (by simp) = quote := by
    rw [List.getLast_cons (by simp), List.getLast_concat]
  rw [List.cons_append, List.append_assoc, List.singleton_append, prelude, if_pos hquote]
  simp only [hclosed, hlast]

/-- A string is taken together with what is taken whole around it. -/
theorem TakesWhole.around {quote : Char} (hquote : quote = '\x22' ∨ quote = '\x27')
    {before body after : List Char} (hbefore : TakesWhole surface before)
    (hbody : StringBody quote body) (hafter : TakesWhole surface after) :
    TakesWhole surface (before ++ quote :: (body ++ quote :: after)) := by
  have hsplit : before ++ quote :: (body ++ quote :: after) =
      before ++ (quote :: (body ++ [quote]) ++ after) := by
    simp only [List.cons_append, List.append_assoc, List.nil_append]
  rw [hsplit]
  exact hbefore.append ((TakesWhole.string hquote hbody).append hafter)

theorem TakesWhole.blockComment {body : List Char} (h : ¬ ['*', '/'] <:+: body) :
    TakesWhole surface ('/' :: '*' :: (body ++ ['*', '/'])) := by
  intro previous rest
  have hclosed : Stylesheet.blockComment (body ++ '*' :: '/' :: rest) =
      ⟨body ++ ['*', '/'], rest⟩ :=
    blockComment_closed h rest
  have hlast : ('*' :: (body ++ ['*', '/'])).getLast (List.cons_ne_nil _ _) = '/' := by
    rw [List.getLast_cons (by simp), List.getLast_append_of_ne_nil _ (List.cons_ne_nil _ _)]
    rfl
  refine ⟨'/', ?_⟩
  rw [List.cons_append, List.cons_append, List.append_assoc, List.cons_append,
    List.singleton_append, prelude, if_neg (by decide), if_pos ⟨rfl, rfl⟩]
  simp only [List.drop_succ_cons, List.drop_zero, hclosed, hlast, List.cons_append]

theorem TakesWhole.intercalate {xs : List (List Char)} (h : ∀ x ∈ xs, TakesWhole surface x) :
    TakesWhole surface ([','].intercalate xs) := by
  have hcomma : TakesWhole surface [','] := .singleton (by decide) (by decide) (by simp)
  induction xs with
  | nil => exact .nil
  | cons x xs ih =>
    have hx : TakesWhole surface x := h x List.mem_cons_self
    have hxs : TakesWhole surface ([','].intercalate xs) :=
      ih fun y hy => h y (List.mem_cons_of_mem x hy)
    cases xs with
    | nil => rwa [List.intercalate_singleton]
    | cons y xs =>
      rw [List.intercalate_cons_cons]
      exact (hx.append hcomma).append hxs

variable (surface)

theorem prelude_semicolon (previous : Char) (rest : List Char) :
    prelude surface 0 previous (';' :: rest) = ⟨[';'], rest⟩ := by
  simp [prelude]

theorem prelude_newline (h : surface.newlineEnds = true) (previous : Char) (rest : List Char) :
    prelude surface 0 previous ('\n' :: rest) = ⟨[], '\n' :: rest⟩ := by
  simp [prelude, h]

end SourceDeps.Stylesheet

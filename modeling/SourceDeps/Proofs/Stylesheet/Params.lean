import SourceDeps.Stylesheet.Params

namespace SourceDeps.Stylesheet

open SourceDeps.Text

theorem exists_append_of_dropWhile_reverse (p : Char → Bool) (cs : List Char) :
    ∃ after, cs = (cs.reverse.dropWhile p).reverse ++ after ∧ ∀ c ∈ after, p c = true := by
  refine ⟨(cs.reverse.takeWhile p).reverse, ?_, fun c hc => ?_⟩
  · rw [← List.reverse_append, List.takeWhile_append_dropWhile, List.reverse_reverse]
  · exact List.all_eq_true.mp List.all_takeWhile c (List.mem_reverse.mp hc)

theorem exists_append_trim_append (cs : List Char) :
    ∃ before after, cs = before ++ (trim cs ++ after) ∧ (∀ c ∈ before, isBlank c = true) ∧
      ∀ c ∈ after, isBlank c = true := by
  obtain ⟨after, hsplit, hafter⟩ :=
    exists_append_of_dropWhile_reverse isBlank (cs.dropWhile isBlank)
  refine ⟨cs.takeWhile isBlank, after, ?_, ?_, hafter⟩
  · rw [trim, trimRight, ← hsplit, List.takeWhile_append_dropWhile]
  · exact List.all_eq_true.mp List.all_takeWhile

/-- White space and semicolons, which no parameter begins with and no bare word holds. -/
def isFiller (c : Char) : Bool := isBlank c || c == ';'

theorem isFiller_of_isBlank {c : Char} (h : isBlank c = true) : isFiller c = true := by
  rw [isFiller, h, Bool.true_or]

theorem ne_of_isFiller {c d : Char} (hc : isFiller c = true) (hd : isFiller d = false) :
    c ≠ d := by
  rintro rfl
  rw [hc] at hd
  exact Bool.noConfusion hd

theorem isWordChar_eq_false {c : Char} (h : isFiller c = true) : isWordChar c = false := by
  rcases Bool.or_eq_true_iff.mp h with hblank | hsemicolon
  · simp [isWordChar, hblank]
  · rw [beq_iff_eq.mp hsemicolon]
    decide

theorem untilQuote_append {quote : Char} {ds : List Char} (h : quote ∉ ds) (cs : List Char) :
    untilQuote quote (cs ++ ds) = untilQuote quote cs := by
  induction cs with
  | nil =>
    induction ds with
    | nil => rfl
    | cons d ds ih =>
      obtain ⟨hd, hds⟩ := List.ne_and_not_mem_of_not_mem_cons h
      have hnone : untilQuote quote ds = none := ih hds
      rw [List.nil_append, untilQuote, untilQuote, if_neg hd.symm, hnone, Option.map_none]
  | cons c cs ih => rw [List.cons_append, untilQuote, untilQuote, ih]

theorem untilQuote_closed {quote : Char} {body : List Char} (h : quote ∉ body)
    (rest : List Char) : untilQuote quote (body ++ quote :: rest) = some body := by
  induction body with
  | nil => rw [List.nil_append, untilQuote, if_pos rfl]
  | cons c body ih =>
    obtain ⟨hc, hbody⟩ := List.ne_and_not_mem_of_not_mem_cons h
    rw [List.cons_append, untilQuote, if_neg hc.symm, ih hbody, Option.map_some]

/-- What opens a string or an address stays the same when only filler is put behind a text. -/
theorem prefix_of_prefix_append {mark cs ds : List Char}
    (hmark : mark.any isFiller = false) (hds : ∀ c ∈ ds, isFiller c = true)
    (h : mark <+: cs ++ ds) : mark <+: cs := by
  obtain ⟨rest, hrest⟩ := h
  -- A mark that ended behind the text would hold filler.
  rcases List.append_eq_append_iff.mp hrest with ⟨more, hcs, -⟩ | ⟨more, hmore, hds'⟩
  · exact ⟨more, hcs.symm⟩
  · cases more with
    | nil => exact ⟨[], by rw [hmore, List.append_nil, List.append_nil]⟩
    | cons c more =>
      have hfalse : ¬ isFiller c = true := List.any_eq_false.mp hmark c (by simp [hmore])
      have htrue : isFiller c = true := hds c (by simp [hds'])
      exact absurd htrue hfalse

theorem atStart?_eq_word {cs : List Char} (hdouble : ¬ ['\x22'] <+: cs)
    (hsingle : ¬ ['\x27'] <+: cs) (hurl : ¬ ['u', 'r', 'l', '('] <+: cs) :
    atStart? cs = if (cs.takeWhile isWordChar).isEmpty then none
      else some (String.ofList (cs.takeWhile isWordChar)) := by
  refine atStart?.eq_4 cs ?_ ?_ ?_
  · rintro rest rfl
    exact hdouble (List.prefix_append ['\x22'] rest)
  · rintro rest rfl
    exact hsingle (List.prefix_append ['\x27'] rest)
  · rintro rest rfl
    exact hurl (List.prefix_append ['u', 'r', 'l', '('] rest)

theorem takeWhile_isWordChar_append {ds : List Char} (hds : ∀ c ∈ ds, isFiller c = true)
    (cs : List Char) : (cs ++ ds).takeWhile isWordChar = cs.takeWhile isWordChar := by
  induction cs with
  | nil =>
    cases ds with
    | nil => rfl
    | cons d ds =>
      have hd : isWordChar d = false := isWordChar_eq_false (hds d List.mem_cons_self)
      rw [List.nil_append, List.takeWhile_cons_of_neg (by simp [hd]), List.takeWhile_nil]
  | cons c cs ih => rw [List.cons_append, List.takeWhile_cons, List.takeWhile_cons, ih]

theorem atStart?_append {ds : List Char} (hds : ∀ c ∈ ds, isFiller c = true) (cs : List Char) :
    atStart? (cs ++ ds) = atStart? cs := by
  have hnot : ∀ quote : Char, isFiller quote = false → quote ∉ ds := fun quote hquote hmem =>
    ne_of_isFiller (hds quote hmem) hquote rfl
  have hmark : ∀ mark : List Char, mark.any isFiller = false → ¬ mark <+: cs →
      ¬ mark <+: cs ++ ds := fun mark hm hcs hin => hcs (prefix_of_prefix_append hm hds hin)
  by_cases hdouble : ['\x22'] <+: cs
  · obtain ⟨rest, rfl⟩ := hdouble
    rw [List.append_assoc, List.singleton_append, List.singleton_append, atStart?, atStart?,
      untilQuote_append (hnot _ (by decide))]
  by_cases hsingle : ['\x27'] <+: cs
  · obtain ⟨rest, rfl⟩ := hsingle
    rw [List.append_assoc, List.singleton_append, List.singleton_append, atStart?, atStart?,
      untilQuote_append (hnot _ (by decide))]
  by_cases hurl : ['u', 'r', 'l', '('] <+: cs
  · obtain ⟨rest, rfl⟩ := hurl
    rfl
  · rw [atStart?_eq_word hdouble hsingle hurl,
      atStart?_eq_word (hmark _ (by decide) hdouble) (hmark _ (by decide) hsingle)
        (hmark _ (by decide) hurl), takeWhile_isWordChar_append hds]

theorem leading?_eq (part : List Char) : leading? part = atStart? (part.dropWhile isBlank) := by
  obtain ⟨after, hsplit, hafter⟩ :=
    exists_append_of_dropWhile_reverse isBlank (part.dropWhile isBlank)
  have hfiller : ∀ c ∈ after, isFiller c = true := fun c hc => isFiller_of_isBlank (hafter c hc)
  calc leading? part = atStart? (trim part) := rfl
    _ = atStart? (trim part ++ after) := (atStart?_append hfiller _).symm
    _ = atStart? (part.dropWhile isBlank) := by rw [trim, trimRight, ← hsplit]

theorem leading?_blank_append {before : List Char} (h : ∀ c ∈ before, isBlank c = true)
    (part : List Char) : leading? (before ++ part) = leading? part := by
  rw [leading?_eq, leading?_eq, List.dropWhile_append_of_pos h]

theorem leading?_append_filler {after : List Char} (h : ∀ c ∈ after, isFiller c = true)
    (part : List Char) : leading? (part ++ after) = leading? part := by
  rw [leading?_eq, leading?_eq, List.dropWhile_append]
  by_cases hnil : (part.dropWhile isBlank).isEmpty
  · -- The part is white space throughout, so that it is the filler that is looked at.
    have hdrop : ∀ c ∈ after.dropWhile isBlank, isFiller c = true := fun c hc =>
      h c ((List.dropWhile_suffix isBlank).mem hc)
    rw [if_pos hnil, List.isEmpty_iff.mp hnil]
    exact atStart?_append hdrop []
  · rw [if_neg hnil]
    exact atStart?_append h _

theorem after_within {quote c : Char} (h : c ≠ quote) (depth : Nat) :
    Nesting.after ⟨some quote, depth⟩ c = ⟨some quote, depth⟩ :=
  if_neg h

theorem after_closing (quote : Char) (depth : Nat) :
    Nesting.after ⟨some quote, depth⟩ quote = ⟨none, depth⟩ :=
  if_pos rfl

theorem after_opening {quote : Char} (h : quote = '\x22' ∨ quote = '\x27') (depth : Nat) :
    Nesting.after ⟨none, depth⟩ quote = ⟨some quote, depth⟩ :=
  if_pos h

/-- The characters that open, close or separate something outside strings. -/
def marks : List Char := ['\x22', '\x27', '(', ')', ',']

theorem notMem_of_isBlank {c : Char} (h : isBlank c = true) {cs : List Char}
    (hcs : (cs.all fun d => !isBlank d) = true) : c ∉ cs := by
  intro hmem
  have hfalse := List.all_eq_true.mp hcs c hmem
  rw [h] at hfalse
  exact Bool.noConfusion hfalse

theorem notMem_marks_of_isBlank {c : Char} (h : isBlank c = true) : c ∉ marks :=
  notMem_of_isBlank h rfl

theorem after_of_notMem_marks {c : Char} (h : c ∉ marks) : Nesting.after {} c = {} := by
  simp only [marks, List.mem_cons, List.not_mem_nil, or_false, not_or] at h
  obtain ⟨hdouble, hsingle, hopen, hclose, -⟩ := h
  simp only [Nesting.after, hdouble, hsingle, or_self, hopen, hclose, if_false]

theorem foldl_after_of_notMem_marks {cs : List Char} (h : ∀ c ∈ cs, c ∉ marks) :
    cs.foldl Nesting.after {} = {} := by
  induction cs with
  | nil => rfl
  | cons c cs ih =>
    rw [List.foldl_cons, after_of_notMem_marks (h c List.mem_cons_self)]
    exact ih fun d hd => h d (List.mem_cons_of_mem c hd)

theorem foldl_after_quoted {quote : Char} {body : List Char} (h : quote ∉ body) (depth : Nat) :
    body.foldl Nesting.after ⟨some quote, depth⟩ = ⟨some quote, depth⟩ := by
  induction body with
  | nil => rfl
  | cons c body ih =>
    obtain ⟨hc, hbody⟩ := List.ne_and_not_mem_of_not_mem_cons h
    rw [List.foldl_cons, after_within hc.symm]
    exact ih hbody

theorem parts_ne_nil (n : Nesting) (cs : List Char) : parts n cs ≠ [] := by
  fun_cases parts n cs <;> simp

theorem separates_iff {n : Nesting} {c : Char} : n.separates c = true ↔ c = ',' ∧ n = {} := by
  rw [Nesting.separates, Bool.and_eq_true, beq_iff_eq, beq_iff_eq]

theorem separates_eq_false {c : Char} (h : c ≠ ',') (n : Nesting) : n.separates c = false :=
  Bool.eq_false_iff.mpr fun hsep => h (separates_iff.mp hsep).1

theorem parts_separator {n : Nesting} {c : Char} (h : n.separates c = true) (cs : List Char) :
    parts n (c :: cs) = [] :: parts n cs := by
  rw [parts, if_pos h]

theorem parts_cons {n : Nesting} {c : Char} (h : n.separates c = false) (cs : List Char) :
    parts n (c :: cs) = (parts (n.after c) cs).modifyHead (c :: ·) := by
  rw [parts, h, if_neg Bool.false_ne_true]
  cases hparts : parts (n.after c) cs with
  | nil => exact absurd hparts (parts_ne_nil _ _)
  | cons p ps => rfl

/-- The parts of a text and those of what is put behind it, but for the last and the first of them,
which make one part. -/
theorem parts_append (n : Nesting) (cs ds : List Char) :
    ∃ ps p q qs, parts n cs = ps ++ [p] ∧ parts (cs.foldl Nesting.after n) ds = q :: qs ∧
      parts n (cs ++ ds) = ps ++ (p ++ q) :: qs := by
  -- The first part may be the last one too, and then it is its head that grows.
  induction cs generalizing n with
  | nil =>
    obtain ⟨q, qs, hds⟩ := List.exists_cons_of_ne_nil (parts_ne_nil n ds)
    exact ⟨[], [], q, qs, rfl, hds, hds⟩
  | cons c cs ih =>
    rw [List.foldl_cons]
    obtain ⟨ps, p, q, qs, hcs, hds, happend⟩ := ih (n.after c)
    cases hc : n.separates c with
    | true =>
      obtain ⟨rfl, rfl⟩ := separates_iff.mp hc
      refine ⟨[] :: ps, p, q, qs, ?_, hds, ?_⟩
      · rw [parts_separator hc, List.cons_append]
        exact congrArg _ hcs
      · rw [List.cons_append, parts_separator hc, List.cons_append]
        exact congrArg _ happend
    | false =>
      rw [List.cons_append, parts_cons hc, parts_cons hc, hcs, happend]
      cases ps with
      | nil => exact ⟨[], c :: p, q, qs, rfl, hds, rfl⟩
      | cons p' ps => exact ⟨(c :: p') :: ps, p, q, qs, rfl, hds, rfl⟩

/-- An outer comma ends a part. -/
theorem parts_append_comma {n : Nesting} {cs : List Char} (h : cs.foldl Nesting.after n = {})
    (ds : List Char) : parts n (cs ++ ',' :: ds) = parts n cs ++ parts {} ds := by
  obtain ⟨ps, p, q, qs, hcs, hds, happend⟩ := parts_append n cs (',' :: ds)
  rw [h, parts_separator (by decide)] at hds
  obtain ⟨rfl, rfl⟩ := List.cons.inj hds
  rw [happend, hcs, List.append_nil, List.append_assoc, List.singleton_append]

theorem parts_filler {ds : List Char} (hds : ∀ d ∈ ds, isFiller d = true) (n : Nesting) :
    parts n ds = [ds] := by
  induction ds generalizing n with
  | nil => rfl
  | cons d ds ih =>
    have hd : d ≠ ',' := ne_of_isFiller (hds d List.mem_cons_self) (by decide)
    rw [parts_cons (separates_eq_false hd n), ih fun c hc => hds c (List.mem_cons_of_mem d hc)]
    rfl

/-- Filler at the end belongs to the last part. -/
theorem parts_append_filler {ds : List Char} (hds : ∀ d ∈ ds, isFiller d = true) (n : Nesting)
    (cs : List Char) :
    ∃ ps p, parts n cs = ps ++ [p] ∧ parts n (cs ++ ds) = ps ++ [p ++ ds] := by
  obtain ⟨ps, p, q, qs, hcs, hfiller, happend⟩ := parts_append n cs ds
  rw [parts_filler hds] at hfiller
  obtain ⟨rfl, rfl⟩ := List.cons.inj hfiller
  exact ⟨ps, p, hcs, happend⟩

theorem filterMap_parts_append_filler {ds : List Char} (hds : ∀ d ∈ ds, isFiller d = true)
    (cs : List Char) :
    (parts {} (cs ++ ds)).filterMap leading? = (parts {} cs).filterMap leading? := by
  obtain ⟨ps, p, hcs, happend⟩ := parts_append_filler hds {} cs
  rw [hcs, happend, List.filterMap_append, List.filterMap_append]
  simp only [List.filterMap_cons, leading?_append_filler hds]

/-- The parameters are those that the parts begin with: dropping the semicolons at the end first
changes nothing. -/
theorem params_eq (cs : List Char) : params cs = (parts {} cs).filterMap leading? := by
  obtain ⟨after, hsplit, hafter⟩ := exists_append_of_dropWhile_reverse (· == ';') cs
  have hfiller : ∀ c ∈ after, isFiller c = true := fun c hc => by
    rw [isFiller, hafter c hc, Bool.or_true]
  calc params cs = (parts {} (dropSemicolons cs)).filterMap leading? := rfl
    _ = (parts {} (dropSemicolons cs ++ after)).filterMap leading? :=
        (filterMap_parts_append_filler hfiller _).symm
    _ = (parts {} cs).filterMap leading? := by rw [dropSemicolons, ← hsplit]

theorem params_append_filler {ds : List Char} (hds : ∀ d ∈ ds, isFiller d = true)
    (cs : List Char) : params (cs ++ ds) = params cs := by
  rw [params_eq, params_eq, filterMap_parts_append_filler hds]

theorem params_cons_blank {c : Char} (h : isBlank c = true) (cs : List Char) :
    params (c :: cs) = params cs := by
  have hcomma : c ≠ ',' := ne_of_isFiller (isFiller_of_isBlank h) (by decide)
  have hleading : ∀ p, leading? (c :: p) = leading? p :=
    leading?_blank_append fun d hd => List.mem_singleton.mp hd ▸ h
  obtain ⟨p, ps, hparts⟩ := List.exists_cons_of_ne_nil (parts_ne_nil {} cs)
  rw [params_eq, params_eq, parts_cons (separates_eq_false hcomma {}),
    after_of_notMem_marks (notMem_marks_of_isBlank h),
    hparts, List.modifyHead_cons, List.filterMap_cons, List.filterMap_cons, hleading]

theorem params_blank_append {before : List Char} (h : ∀ c ∈ before, isBlank c = true)
    (cs : List Char) : params (before ++ cs) = params cs := by
  induction before with
  | nil => rfl
  | cons c before ih =>
    rw [List.cons_append, params_cons_blank (h c List.mem_cons_self)]
    exact ih fun d hd => h d (List.mem_cons_of_mem c hd)

theorem params_trim (cs : List Char) : params (trim cs) = params cs := by
  obtain ⟨before, after, hsplit, hbefore, hafter⟩ := exists_append_trim_append cs
  calc params (trim cs) = params (trim cs ++ after) :=
        (params_append_filler (fun c hc => isFiller_of_isBlank (hafter c hc)) _).symm
    _ = params (before ++ (trim cs ++ after)) := (params_blank_append hbefore _).symm
    _ = params cs := by rw [← hsplit]

/-- At an outer comma the parameters of both sides follow each other. -/
theorem params_append_comma {cs : List Char} (h : cs.foldl Nesting.after {} = {})
    (ds : List Char) : params (cs ++ ',' :: ds) = params cs ++ params ds := by
  rw [params_eq, params_eq, params_eq, parts_append_comma h, List.filterMap_append]

variable {quote : Char}

theorem parts_of_notMem_marks {cs : List Char} (h : ∀ c ∈ cs, c ∉ marks) :
    parts {} cs = [cs] := by
  induction cs with
  | nil => rfl
  | cons c cs ih =>
    have hc : c ∉ marks := h c List.mem_cons_self
    have hcomma : c ≠ ',' := fun he => hc (he ▸ by decide)
    rw [parts_cons (separates_eq_false hcomma {}), after_of_notMem_marks hc,
      ih fun d hd => h d (List.mem_cons_of_mem c hd)]
    rfl

/-- A string that is open belongs to one part up to its quote. -/
theorem parts_within {body : List Char} (h : quote ∉ body) (depth : Nat) (cs : List Char) :
    parts ⟨some quote, depth⟩ (body ++ quote :: cs) =
      (parts ⟨none, depth⟩ cs).modifyHead (body ++ quote :: ·) := by
  have hsep : ∀ c, (⟨some quote, depth⟩ : Nesting).separates c = false := fun c =>
    Bool.eq_false_iff.mpr fun hc => by simpa using (separates_iff.mp hc).2
  induction body with
  | nil =>
    rw [List.nil_append, parts_cons (hsep quote), after_closing]
    rfl
  | cons c body ih =>
    obtain ⟨hc, hbody⟩ := List.ne_and_not_mem_of_not_mem_cons h
    rw [List.cons_append, parts_cons (hsep c), after_within hc.symm, ih hbody,
      List.modifyHead_modifyHead]
    rfl

/-- The text up to the quote that follows is the parameter that an opening quote gives. -/
theorem params_opening (hquote : quote = '\x22' ∨ quote = '\x27') {before body : List Char}
    (hbefore : ∀ c ∈ before, isBlank c = true) (hbody : quote ∉ body) (cs : List Char) :
    params (before ++ quote :: (body ++ quote :: cs)) =
      String.ofList body :: (parts {} cs).tail.filterMap leading? := by
  obtain ⟨p, ps, hparts⟩ := List.exists_cons_of_ne_nil (parts_ne_nil {} cs)
  have hsplit : parts {} (quote :: (body ++ quote :: cs)) =
      (quote :: (body ++ quote :: p)) :: ps := by
    have hsep : quote ≠ ',' := by rcases hquote with rfl | rfl <;> decide
    rw [parts_cons (separates_eq_false hsep {}), after_opening hquote, parts_within hbody, hparts]
    rfl
  have hleading : leading? (quote :: (body ++ quote :: p)) = some (String.ofList body) := by
    have hblank : isBlank quote = false := by rcases hquote with rfl | rfl <;> rfl
    rw [leading?_eq, List.dropWhile_cons_of_neg (by simp [hblank])]
    rcases hquote with rfl | rfl <;> rw [atStart?, untilQuote_closed hbody, Option.map_some]
  rw [params_blank_append hbefore, params_eq, hsplit, hparts, List.filterMap_cons_some hleading,
    List.tail_cons]

/-- A closed string closes all that it opens, and what stands around it opens nothing. -/
theorem foldl_after_string (hquote : quote = '\x22' ∨ quote = '\x27')
    {before body after : List Char} (hbefore : ∀ c ∈ before, c ∉ marks) (hbody : quote ∉ body)
    (hafter : ∀ c ∈ after, c ∉ marks) :
    (before ++ quote :: (body ++ quote :: after)).foldl Nesting.after {} = {} := by
  rw [List.foldl_append, foldl_after_of_notMem_marks hbefore, List.foldl_cons,
    after_opening hquote, List.foldl_append, foldl_after_quoted hbody, List.foldl_cons,
    after_closing]
  exact foldl_after_of_notMem_marks hafter

/-- A closed string with white space in front of it is one parameter, whatever stands behind it
without opening or separating anything. -/
theorem params_string (hquote : quote = '\x22' ∨ quote = '\x27')
    {before body after : List Char} (hbefore : ∀ c ∈ before, isBlank c = true)
    (hbody : quote ∉ body) (hafter : ∀ c ∈ after, c ∉ marks) :
    params (before ++ quote :: (body ++ quote :: after)) = [String.ofList body] := by
  rw [params_opening hquote hbefore hbody, parts_of_notMem_marks hafter]
  rfl

/-- What begins like a comment gives its beginning as a parameter. -/
theorem params_comment (cs : List Char) :
    ∃ word ps, params ('/' :: '*' :: cs) = String.ofList ('/' :: '*' :: word) :: ps := by
  obtain ⟨p, ps, hparts⟩ := List.exists_cons_of_ne_nil (parts_ne_nil {} cs)
  have hsplit : parts {} ('/' :: '*' :: cs) = ('/' :: '*' :: p) :: ps := by
    rw [parts_cons (separates_eq_false (by decide) {}), after_of_notMem_marks (by decide),
      parts_cons (separates_eq_false (by decide) {}), after_of_notMem_marks (by decide), hparts]
    rfl
  have hleading : leading? ('/' :: '*' :: p) =
      some (String.ofList ('/' :: '*' :: p.takeWhile isWordChar)) := by
    rw [leading?_eq, List.dropWhile_cons_of_neg (by decide)]
    rfl
  exact ⟨_, _, by rw [params_eq, hsplit, List.filterMap_cons_some hleading]⟩

/-- Joined by commas, texts that close all that they open and have one parameter each give these
parameters one after the other, and then come the parameters of the texts behind them. -/
theorem params_intercalate_map {α : Type} {chars : α → List Char} {name : α → String}
    {items : List α} (hclosed : ∀ a ∈ items, (chars a).foldl Nesting.after {} = {})
    (hname : ∀ a ∈ items, params (chars a) = [name a]) (others : List (List Char)) :
    params ([','].intercalate (items.map chars ++ others)) =
      items.map name ++ params ([','].intercalate others) := by
  induction items with
  | nil => rfl
  | cons a items ih =>
    obtain ⟨ha, hclosed⟩ := List.forall_mem_cons.mp hclosed
    obtain ⟨hparams, hname⟩ := List.forall_mem_cons.mp hname
    have hrest := ih hclosed hname
    rw [List.map_cons, List.map_cons, List.cons_append, List.cons_append, ← hrest]
    -- There is a comma behind the first text unless it is the only one.
    cases items.map chars ++ others with
    | nil =>
      rw [List.intercalate_singleton, hparams]
      rfl
    | cons x xs =>
      rw [List.intercalate_cons_cons, List.append_assoc, List.singleton_append,
        params_append_comma ha, hparams, List.singleton_append]

end SourceDeps.Stylesheet

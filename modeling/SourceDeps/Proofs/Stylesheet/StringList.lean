import SourceDeps.Proofs.Stylesheet.Segments

namespace SourceDeps.Stylesheet

open SourceDeps.Text

/-- White space and closed comments. -/
inductive IsGap : List Char → Prop where
  | nil : IsGap []
  | blank {c : Char} {cs : List Char} (h : isBlank c = true) : IsGap cs → IsGap (c :: cs)
  | comment (body : List Char) {cs : List Char} (h : ¬ ['*', '/'] <:+: body) :
      IsGap cs → IsGap ('/' :: '*' :: (body ++ ['*', '/']) ++ cs)

/-- A string of a list with what stands around it. -/
structure ListedString where
  before : List Char
  quote : Quote
  body : List Char
  after : List Char
  before_gap : IsGap before
  body_string : StringBody quote.char body
  after_gap : IsGap after

namespace ListedString

def chars (s : ListedString) : List Char :=
  s.before ++ s.quote.char :: (s.body ++ s.quote.char :: s.after)

/-- Whether comments stand only behind the string, with no character in them that opens, closes or
separates something. White space has no such characters. -/
def IsBare (s : ListedString) : Prop :=
  (∀ c ∈ s.before, isBlank c = true) ∧ ∀ c ∈ s.after, c ∉ marks

instance (s : ListedString) : Decidable s.IsBare :=
  decidable_of_iff (s.before.all isBlank = true ∧ s.after.all (!marks.contains ·) = true)
    (by simp [IsBare])

/-- The strings with commas between them. -/
def joined (items : List ListedString) : List Char := [','].intercalate (items.map chars)

end ListedString

open ListedString

/-- A rule that imports the strings of a list. -/
def importText (items : List ListedString) : String :=
  "@import" ++ String.ofList (joined items) ++ ";"

theorem toNat_of_isBlank {c : Char} (h : isBlank c = true) :
    c.val.toNat ≤ 32 ∨ 128 ≤ c.val.toNat := by
  simp only [isBlank, Char.le_def, ge_iff_le, Bool.or_eq_true, Bool.and_eq_true, decide_eq_true_eq,
    beq_iff_eq, UInt32.le_iff_toNat_le] at h
  obtain (⟨-, hle⟩ | rfl) | ⟨hge, -⟩ := h
  · exact .inl (Nat.le_trans hle (by decide))
  · exact .inl (by decide)
  · exact .inr hge

theorem isNameChar_of_isBlank {c : Char} (h : isBlank c = true) : isNameChar c = false := by
  rw [← Bool.not_eq_true]
  intro hname
  have hblank := toNat_of_isBlank h
  have hrange := toNat_of_isNameChar hname
  omega

theorem TakesWhole.blank {c : Char} (h : isBlank c = true) : TakesWhole .scss [c] := by
  refine .singleton ?_ (notMem_of_isBlank h rfl) fun hc => Bool.noConfusion hc.2
  rintro (rfl | rfl)
  · exact Bool.noConfusion h
  · exact Bool.noConfusion h

theorem IsGap.takesWhole {cs : List Char} (h : IsGap cs) : TakesWhole .scss cs := by
  induction h with
  | nil => exact .nil
  | blank hblank _ ih => exact (TakesWhole.blank hblank).append ih
  | comment _ hbody _ ih => exact (TakesWhole.blockComment hbody).append ih

/-- Neither white space nor a comment nor a quote goes on with a name. -/
theorem IsGap.head_append {cs ds : List Char} (h : IsGap cs)
    (hds : ∀ c, ds.head? = some c → isNameChar c = false) :
    ∀ c, (cs ++ ds).head? = some c → isNameChar c = false := by
  cases h with
  | nil => exact hds
  | blank hblank _ => exact fun c hc => Option.some.inj hc ▸ isNameChar_of_isBlank hblank
  | comment _ _ _ => exact fun c hc => Option.some.inj hc ▸ rfl

/-- What is not white space throughout has a comment behind the white space at its beginning. -/
theorem IsGap.exists_comment {cs : List Char} (h : IsGap cs) (hc : ∃ c ∈ cs, isBlank c = false) :
    ∃ blanks more, cs = blanks ++ '/' :: '*' :: more ∧ ∀ c ∈ blanks, isBlank c = true := by
  induction h with
  | nil => simp at hc
  | @blank c cs hblank _ ih =>
    obtain ⟨d, hd, hfalse⟩ := hc
    have hmem : d ∈ cs := by
      rcases List.mem_cons.mp hd with rfl | hmem
      · rw [hblank] at hfalse
        exact Bool.noConfusion hfalse
      · exact hmem
    obtain ⟨blanks, more, rfl, hblanks⟩ := ih ⟨d, hmem, hfalse⟩
    refine ⟨c :: blanks, more, rfl, fun e he => ?_⟩
    rcases List.mem_cons.mp he with rfl | he
    · exact hblank
    · exact hblanks e he
  | @comment body cs hbody _ _ => exact ⟨[], body ++ ['*', '/'] ++ cs, by simp, by simp⟩

namespace ListedString

theorem takesWhole (s : ListedString) : TakesWhole .scss s.chars :=
  .around s.quote.char_eq s.before_gap.takesWhole s.body_string s.after_gap.takesWhole

theorem head_not_isNameChar (s : ListedString) (rest : List Char) :
    ∀ c, (s.chars ++ rest).head? = some c → isNameChar c = false := by
  have hquote : ∀ c, (s.quote.char :: (s.body ++ s.quote.char :: s.after) ++ rest).head? =
      some c → isNameChar c = false := by
    intro c hc
    obtain rfl : s.quote.char = c := Option.some.inj hc
    rcases s.quote.char_eq with hq | hq <;> rw [hq] <;> rfl
  rw [chars, List.append_assoc]
  exact s.before_gap.head_append hquote

/-- Of a string with its own quote in it the parameter is what stands before that quote. -/
theorem params_chars_append (s : ListedString) (hbare : s.IsBare) {start rest : List Char}
    (hbody : s.body = start ++ s.quote.char :: rest) (hstart : s.quote.char ∉ start)
    (more : List Char) : ∃ ps, params (s.chars ++ more) = String.ofList start :: ps := by
  have hsplit : s.chars ++ more = s.before ++ s.quote.char :: (start ++ s.quote.char ::
      (rest ++ s.quote.char :: s.after ++ more)) := by
    simp only [chars, hbody, List.append_assoc, List.cons_append]
  rw [hsplit, params_opening s.quote.char_eq hbare.1 hstart]
  exact ⟨_, rfl⟩

/-- In front of all others, strings without their own quote in them are the first parameters. -/
theorem params_joined_append {items : List ListedString}
    (h : ∀ s ∈ items, s.IsBare ∧ s.quote.char ∉ s.body) (others : List ListedString) :
    params (joined (items ++ others)) =
      items.map (fun s => String.ofList s.body) ++ params (joined others) := by
  have hclosed : ∀ s ∈ items, s.chars.foldl Nesting.after {} = {} := fun s hs =>
    foldl_after_string s.quote.char_eq (fun c hc => notMem_marks_of_isBlank ((h s hs).1.1 c hc))
      (h s hs).2 (h s hs).1.2
  have hparams : ∀ s ∈ items, params s.chars = [String.ofList s.body] := fun s hs =>
    params_string s.quote.char_eq (h s hs).1.1 (h s hs).2 (h s hs).1.2
  rw [joined, List.map_append, params_intercalate_map hclosed hparams, joined]

/-- The parameters are the strings if no string has its own quote in it, and only then. -/
theorem params_joined_iff {items : List ListedString} (h : ∀ s ∈ items, s.IsBare) :
    params (joined items) = items.map (fun s => String.ofList s.body) ↔
      ∀ s ∈ items, s.quote.char ∉ s.body := by
  constructor
  · -- The first string is right, so that the list behind it is read on its own, and is right too.
    intro heq
    induction items with
    | nil => exact List.forall_mem_nil _
    | cons s items ih =>
      have hbare : s.IsBare := h s List.mem_cons_self
      have hquote : s.quote.char ∉ s.body := by
        -- The first parameter would end at that quote, shorter than the string.
        intro hmem
        obtain ⟨start, rest, hbody, hstart⟩ := List.eq_append_cons_of_mem hmem
        obtain ⟨more, hmore⟩ := exists_intercalate_cons [','] s.chars (items.map chars)
        obtain ⟨ps, hps⟩ := s.params_chars_append hbare hbody hstart more
        rw [joined, List.map_cons, hmore, hps, List.map_cons, List.cons.injEq] at heq
        have hshort : start = s.body := String.ofList_injective heq.1
        have hlength := congrArg List.length (hshort.trans hbody)
        simp only [List.length_append, List.length_cons] at hlength
        omega
      have hfirst : ∀ t ∈ [s], t.IsBare ∧ t.quote.char ∉ t.body :=
        List.forall_mem_singleton.mpr ⟨hbare, hquote⟩
      rw [← List.singleton_append, params_joined_append hfirst, List.map_append,
        List.append_cancel_left_eq] at heq
      exact List.forall_mem_cons.mpr ⟨hquote, ih (fun t ht => h t (List.mem_cons_of_mem s ht)) heq⟩
  · intro hquotes
    have hplain : ∀ s ∈ items, s.IsBare ∧ s.quote.char ∉ s.body := fun s hs =>
      ⟨h s hs, hquotes s hs⟩
    have happend := params_joined_append hplain []
    rw [List.append_nil] at happend
    exact happend.trans (List.append_nil _)

/-- A comment in front of a string is taken for a parameter. -/
theorem params_joined_comment {s : ListedString} (h : ∃ c ∈ s.before, isBlank c = false)
    (items : List ListedString) :
    ∃ word ps, params (joined (s :: items)) = String.ofList ('/' :: '*' :: word) :: ps := by
  obtain ⟨blanks, more, hbefore, hblanks⟩ := s.before_gap.exists_comment h
  obtain ⟨behind, hbehind⟩ := exists_intercalate_cons [','] s.chars (items.map chars)
  have hsplit : joined (s :: items) = blanks ++ '/' :: '*' :: (more ++
      (s.quote.char :: (s.body ++ s.quote.char :: s.after) ++ behind)) := by
    rw [joined, List.map_cons, hbehind, chars, hbefore]
    simp only [List.append_assoc, List.cons_append]
  rw [hsplit, params_blank_append hblanks]
  exact params_comment _

theorem takesWhole_joined (items : List ListedString) : TakesWhole .scss (joined items) := by
  refine .intercalate fun x hx => ?_
  obtain ⟨s, -, rfl⟩ := List.mem_map.mp hx
  exact s.takesWhole

theorem head_joined_not_isNameChar (items : List ListedString) :
    ∀ c, (joined items ++ [';']).head? = some c → isNameChar c = false := by
  cases items with
  | nil => exact fun c hc => Option.some.inj hc ▸ rfl
  | cons s items =>
    obtain ⟨more, hmore⟩ := exists_intercalate_cons [','] s.chars (items.map chars)
    rw [joined, List.map_cons, hmore, List.append_assoc]
    exact s.head_not_isNameChar (more ++ [';'])

theorem readsRule_joined (items : List ListedString) :
    ReadsRule .scss "import".toList (joined items ++ [';']) [] := by
  refine readsRule_of_prelude .scss (by decide) (List.all_eq_true.mp (by decide)) ?_ ?_
  · rw [List.append_nil]
    exact head_joined_not_isNameChar items
  · intro previous
    obtain ⟨next, hnext⟩ := takesWhole_joined items previous [';']
    rw [List.append_nil, hnext, prelude_semicolon]

end ListedString

/-- A rule that imports the strings of a list is read as one rule, and its prelude is the list with
the semicolon. If comments stand only behind the strings, with no character that opens, closes or
separates anything, then its parameters are the strings exactly when no string has its own quote in
it. The first comment in front of a string takes the place of the string. -/
theorem read_importText (items : List ListedString) :
    ∃ ps, read .scss (importText items) =
        ⟨.scss, [⟨"import", trimmed (String.ofList (joined items) ++ ";"), ps, 1⟩]⟩ ∧
      ((∀ s ∈ items, s.IsBare) →
        (ps = items.map (fun s => String.ofList s.body) ↔ ∀ s ∈ items, s.quote.char ∉ s.body)) ∧
      ∀ left s right, items = left ++ s :: right →
        (∀ t ∈ left, t.IsBare ∧ t.quote.char ∉ t.body) → (∃ c ∈ s.before, isBlank c = false) →
        ∃ word more, ps =
          left.map (fun t => String.ofList t.body) ++ String.ofList ('/' :: '*' :: word) :: more := by
  have htext : (importText items).toList =
      '@' :: ("import".toList ++ (joined items ++ [';'] ++ [])) := by
    simp [importText]
  have hparams : params (trim (joined items ++ [';'])) = params (joined items) := by
    rw [params_trim, params_append_filler fun c hc => List.mem_singleton.mp hc ▸ rfl]
  have hprelude : String.ofList (trim (joined items ++ [';'])) =
      trimmed (String.ofList (joined items) ++ ";") := by
    rw [trimmed, String.toList_append, String.toList_ofList]
    rfl
  refine ⟨params (joined items), ?_, fun h => params_joined_iff h, ?_⟩
  · rw [read, placedRules, htext, readsRule_joined, hparams, hprelude, rulesFrom,
      String.ofList_toList, List.map_singleton]
  · rintro left s right rfl hleft h
    obtain ⟨word, more, hs⟩ := params_joined_comment h right
    exact ⟨word, more, by rw [params_joined_append hleft, hs]⟩

/-- A string with an escaped quote of the other kind and a comment behind it, and one on a line of
its own. -/
def plainItems : List ListedString := [
  { before := [' '], quote := .double, body := ['a', '\\', '\x27', 'b'], after := " /* c */".toList
    before_gap := .blank rfl .nil
    body_string := .plain (by decide) (.escaped _ (.plain (by decide) .nil))
    after_gap := .blank rfl (.comment [' ', 'c', ' '] (by decide) .nil) },
  { before := ['\n'], quote := .single, body := ['\x22', ','], after := []
    before_gap := .blank rfl .nil
    body_string := .plain (by decide) (.plain (by decide) .nil)
    after_gap := .nil }]

theorem plainItems_read :
    importText plainItems = "@import \"a\\'b\" /* c */,\n'\",';" ∧
    (∀ s ∈ plainItems, s.IsBare) ∧ (∀ s ∈ plainItems, s.quote.char ∉ s.body) ∧
    read .scss (importText plainItems) =
      ⟨.scss, [⟨"import", "\"a\\'b\" /* c */,\n'\",';", ["a\\'b", "\","], 1⟩]⟩ := by
  have hbare : ∀ s ∈ plainItems, s.IsBare := by decide +kernel
  have hquotes : ∀ s ∈ plainItems, s.quote.char ∉ s.body := by decide +kernel
  have hprelude : trimmed (String.ofList (joined plainItems) ++ ";") =
      "\"a\\'b\" /* c */,\n'\",';" := by
    decide +kernel
  have hbodies : plainItems.map (fun s => String.ofList s.body) = ["a\\'b", "\","] := by
    decide +kernel
  obtain ⟨ps, hread, hiff, -⟩ := read_importText plainItems
  refine ⟨by decide +kernel, hbare, hquotes, ?_⟩
  rw [hread, hprelude, (hiff hbare).mpr hquotes, hbodies]

/-- A string with a comment in front of it, and one with its own quote escaped in it. -/
def escapedItems : List ListedString := [
  { before := " /* c */ ".toList, quote := .single, body := ['a'], after := []
    before_gap := .blank rfl (.comment [' ', 'c', ' '] (by decide) (.blank rfl .nil))
    body_string := .plain (by decide) .nil
    after_gap := .nil },
  { before := [' '], quote := .double, body := ['b', '\\', '\x22', 'c'], after := []
    before_gap := .blank rfl .nil
    body_string := .plain (by decide) (.escaped _ (.plain (by decide) .nil))
    after_gap := .nil }]

/-- Neither parameter is the string that it stands for. -/
theorem escapedItems_misread :
    importText escapedItems = "@import /* c */ 'a', \"b\\\"c\";" ∧
    escapedItems.map (fun s => String.ofList s.body) = ["a", "b\\\"c"] ∧
    (read .scss (importText escapedItems)).rules.map (·.params) = [["/*", "b\\"]] := by
  decide +kernel

end SourceDeps.Stylesheet

import SourceDeps.Proofs.Stylesheet.Params
import SourceDeps.Proofs.Stylesheet.Scan
import SourceDeps.Proofs.Stylesheet.Step

namespace SourceDeps.Stylesheet

open SourceDeps.Text

inductive Quote where
  | double
  | single
  deriving DecidableEq, Repr

namespace Quote

def char : Quote → Char
  | double => '\x22'
  | single => '\x27'

theorem char_eq (q : Quote) : q.char = '\x22' ∨ q.char = '\x27' := by
  cases q
  · exact .inl rfl
  · exact .inr rfl

theorem char_ne_backslash (q : Quote) : q.char ≠ '\\' := by cases q <;> decide

theorem char_ne_newline (q : Quote) : q.char ≠ '\n' := by cases q <;> decide

end Quote

/-- The white space between the parts of a prelude: spaces, tabs, and line breaks where these do not
end it. -/
def isSpacing (surface : Surface) (c : Char) : Bool :=
  c == ' ' || c == '\t' || (c == '\n' && !surface.newlineEnds)

/-- A quoted parameter with the white space around it. -/
structure Param (surface : Surface) where
  before : List Char
  quote : Quote
  body : List Char
  after : List Char
  before_spacing : ∀ c ∈ before, isSpacing surface c = true
  body_plain : ∀ c ∈ body, c ≠ quote.char ∧ c ≠ '\\' ∧ c ≠ '\n'
  after_spacing : ∀ c ∈ after, isSpacing surface c = true

/-- What ends a rule: a semicolon, or a line break on the surfaces where it does. -/
inductive RuleEnd (surface : Surface) where
  | semicolon
  | newline (h : surface.newlineEnds = true)

/-- A rule as it is written: its name, white space, the parameters with commas between them, and its
end. -/
structure WrittenRule (surface : Surface) where
  name : List Char
  spacing : List Char
  params : List (Param surface)
  stop : RuleEnd surface
  name_ne_nil : name ≠ []
  name_chars : ∀ c ∈ name, isNameChar c = true
  spacing_chars : ∀ c ∈ spacing, isSpacing surface c = true

/-- A segment of a stylesheet. -/
inductive Segment (surface : Surface) where
  | plain (c : Char) (h : c ∉ ['\x22', '\x27', '@', '/'])
  | blockComment (body : List Char) (h : ¬ ['*', '/'] <:+: body)
  | lineComment (body : List Char) (h : '\n' ∉ body)
  | string (quote : Quote) (body : List Char) (h : StringBody quote.char body)
  | openString (quote : Quote) (body : List Char) (h : StringBody quote.char body)
  | rule (r : WrittenRule surface)

variable {surface : Surface}

namespace Param

def chars (p : Param surface) : List Char :=
  p.before ++ p.quote.char :: (p.body ++ p.quote.char :: p.after)

end Param

namespace RuleEnd

/-- A semicolon belongs to the prelude that it ends. -/
def taken : RuleEnd surface → List Char
  | semicolon => [';']
  | newline _ => []

/-- A line break does not belong to the prelude that it ends. -/
def left : RuleEnd surface → List Char
  | semicolon => []
  | newline _ => ['\n']

end RuleEnd

namespace WrittenRule

def prelude (r : WrittenRule surface) : List Char :=
  r.spacing ++ ([','].intercalate (r.params.map Param.chars) ++ r.stop.taken)

def chars (r : WrittenRule surface) : List Char :=
  '@' :: (r.name ++ (r.prelude ++ r.stop.left))

/-- The rule that a reader finds, given its line. -/
def atRule (r : WrittenRule surface) (line : Nat) : AtRule where
  name := String.ofList r.name
  prelude := String.ofList (trim r.prelude)
  params := r.params.map fun p => String.ofList p.body
  line := line

end WrittenRule

namespace Segment

def chars : Segment surface → List Char
  | plain c _ => [c]
  | blockComment body _ => '/' :: '*' :: (body ++ ['*', '/'])
  | lineComment body _ => '/' :: '/' :: (body ++ ['\n'])
  | string quote body _ => quote.char :: (body ++ [quote.char])
  | openString quote body _ => quote.char :: (body ++ ['\n'])
  | rule r => r.chars

/-- The rule of a segment that is one, given its line. -/
def atRule? (line : Nat) : Segment surface → Option AtRule
  | rule r => some (r.atRule line)
  | _ => none

end Segment

/-- The rules among segments in order, given the line of the first segment: the line of a rule
counts the line breaks in the segments before it. -/
def rulesOf (line : Nat) : List (Segment surface) → List AtRule
  | [] => []
  | s :: ss => (s.atRule? line).toList ++ rulesOf (line + lineBreaks s.chars) ss

theorem isSpacing_iff {c : Char} : isSpacing surface c = true ↔
    c = ' ' ∨ c = '\t' ∨ c = '\n' ∧ surface.newlineEnds = false := by
  simp only [isSpacing, Bool.or_eq_true, Bool.and_eq_true, beq_iff_eq, Bool.not_eq_true',
    or_assoc]

theorem isBlank_of_isSpacing {c : Char} (h : isSpacing surface c = true) : isBlank c = true := by
  rcases isSpacing_iff.mp h with rfl | rfl | ⟨rfl, -⟩ <;> decide

theorem notMem_marks_of_isSpacing {c : Char} (h : isSpacing surface c = true) : c ∉ marks :=
  notMem_marks_of_isBlank (isBlank_of_isSpacing h)

theorem isNameChar_of_isSpacing {c : Char} (h : isSpacing surface c = true) :
    isNameChar c = false := by
  rcases isSpacing_iff.mp h with rfl | rfl | ⟨rfl, -⟩ <;> decide

theorem TakesWhole.spacing {cs : List Char} (h : ∀ c ∈ cs, isSpacing surface c = true) :
    TakesWhole surface cs := by
  refine .of_forall fun c hc => ?_
  rcases isSpacing_iff.mp (h c hc) with rfl | rfl | ⟨rfl, hsurface⟩
  · exact .singleton (by decide) (by decide) (by simp)
  · exact .singleton (by decide) (by decide) (by simp)
  · exact .singleton (by decide) (by decide) (by simp [hsurface])

namespace Param

theorem takesWhole (p : Param surface) : TakesWhole surface p.chars :=
  .around p.quote.char_eq (.spacing p.before_spacing) (.of_forall p.body_plain)
    (.spacing p.after_spacing)

theorem quote_notMem_body (p : Param surface) : p.quote.char ∉ p.body :=
  fun h => (p.body_plain _ h).1 rfl

theorem foldl_after_chars (p : Param surface) : p.chars.foldl Nesting.after {} = {} :=
  foldl_after_string p.quote.char_eq (fun c hc => notMem_marks_of_isSpacing (p.before_spacing c hc))
    p.quote_notMem_body fun c hc => notMem_marks_of_isSpacing (p.after_spacing c hc)

theorem params_chars (p : Param surface) : params p.chars = [String.ofList p.body] :=
  params_string p.quote.char_eq (fun c hc => isBlank_of_isSpacing (p.before_spacing c hc))
    p.quote_notMem_body fun c hc => notMem_marks_of_isSpacing (p.after_spacing c hc)

theorem params_intercalate (ps : List (Param surface)) :
    params ([','].intercalate (ps.map chars)) = ps.map fun p => String.ofList p.body := by
  have happend : params ([','].intercalate (ps.map chars ++ [])) =
      (ps.map fun p => String.ofList p.body) ++ [] :=
    params_intercalate_map (fun p _ => p.foldl_after_chars) (fun p _ => p.params_chars) []
  rwa [List.append_nil, List.append_nil] at happend

end Param

theorem head_append_not_isNameChar {cs ds : List Char} (hcs : ∀ c ∈ cs, isNameChar c = false)
    (hds : ∀ c, ds.head? = some c → isNameChar c = false) :
    ∀ c, (cs ++ ds).head? = some c → isNameChar c = false := by
  cases cs with
  | nil => exact hds
  | cons d cs =>
    intro c hc
    obtain rfl : d = c := Option.some.inj hc
    exact hcs d List.mem_cons_self

theorem exists_intercalate_cons (between x : List Char) (xs : List (List Char)) :
    ∃ more, between.intercalate (x :: xs) = x ++ more := by
  cases xs with
  | nil => exact ⟨[], by rw [List.intercalate_singleton, List.append_nil]⟩
  | cons y xs => exact ⟨_, by rw [List.intercalate_cons_cons, List.append_assoc]⟩

namespace WrittenRule

theorem takesWhole (r : WrittenRule surface) :
    TakesWhole surface (r.spacing ++ [','].intercalate (r.params.map Param.chars)) := by
  refine (TakesWhole.spacing r.spacing_chars).append (.intercalate fun x hx => ?_)
  obtain ⟨p, -, rfl⟩ := List.mem_map.mp hx
  exact p.takesWhole

theorem prelude_scanned (r : WrittenRule surface) (previous : Char) (rest : List Char) :
    Stylesheet.prelude surface 0 previous (r.prelude ++ (r.stop.left ++ rest)) =
      ⟨r.prelude, r.stop.left ++ rest⟩ := by
  -- All is taken up to the end of the rule, where the scanner stops whatever came before.
  obtain ⟨next, hnext⟩ := r.takesWhole previous (r.stop.taken ++ (r.stop.left ++ rest))
  have hstop : Stylesheet.prelude surface 0 next (r.stop.taken ++ (r.stop.left ++ rest)) =
      ⟨r.stop.taken, r.stop.left ++ rest⟩ := by
    cases r.stop with
    | semicolon => exact prelude_semicolon surface next rest
    | newline h => exact prelude_newline surface h next rest
  rw [hstop] at hnext
  simpa only [WrittenRule.prelude, List.append_assoc] using hnext

theorem head_not_isNameChar (r : WrittenRule surface) (rest : List Char) :
    ∀ c, (r.prelude ++ (r.stop.left ++ rest)).head? = some c → isNameChar c = false := by
  have hstop : ∀ c, (r.stop.taken ++ (r.stop.left ++ rest)).head? = some c →
      isNameChar c = false := by
    cases r.stop with
    | semicolon => exact fun c hc => Option.some.inj hc ▸ rfl
    | newline h => exact fun c hc => Option.some.inj hc ▸ rfl
  rw [WrittenRule.prelude, List.append_assoc, List.append_assoc]
  -- The first character is white space, the quote of the first parameter, or the end of the rule.
  refine head_append_not_isNameChar
    (fun c hc => isNameChar_of_isSpacing (r.spacing_chars c hc)) ?_
  cases r.params with
  | nil => exact hstop
  | cons p ps =>
    obtain ⟨more, hmore⟩ := exists_intercalate_cons [','] p.chars (ps.map Param.chars)
    rw [List.map_cons, hmore, List.append_assoc, Param.chars, List.append_assoc]
    refine head_append_not_isNameChar
      (fun c hc => isNameChar_of_isSpacing (p.before_spacing c hc)) ?_
    intro c hc
    obtain rfl : p.quote.char = c := Option.some.inj hc
    rcases p.quote.char_eq with hquote | hquote <;> rw [hquote] <;> rfl

theorem params_prelude (r : WrittenRule surface) :
    Stylesheet.params (trim r.prelude) = r.params.map fun p => String.ofList p.body := by
  have htaken : ∀ c ∈ r.stop.taken, isFiller c = true := by
    cases r.stop with
    | semicolon => exact fun c hc => List.mem_singleton.mp hc ▸ rfl
    | newline h => exact List.forall_mem_nil _
  rw [params_trim, WrittenRule.prelude,
    params_blank_append fun c hc => isBlank_of_isSpacing (r.spacing_chars c hc),
    params_append_filler htaken, Param.params_intercalate]

theorem passes_left (r : WrittenRule surface) (rest : List Char) :
    Passes surface r.stop.left rest := by
  cases r.stop with
  | semicolon => exact fun line byte => rfl
  | newline h => exact passes_newline surface rest

theorem readsRule (r : WrittenRule surface) (rest : List Char) :
    ReadsRule surface r.name r.prelude (r.stop.left ++ rest) :=
  readsRule_of_prelude surface r.name_ne_nil r.name_chars (r.head_not_isNameChar rest)
    fun previous => r.prelude_scanned previous rest

end WrittenRule

theorem Segment.passes {s : Segment surface} (h : ∀ r, s ≠ rule r) (rest : List Char) :
    Passes surface s.chars rest := by
  cases s with
  | plain c hc =>
    simp only [List.mem_cons, List.not_mem_nil, or_false, not_or] at hc
    obtain ⟨hdouble, hsingle, hat, hslash⟩ := hc
    exact passes_other surface hat (fun hq => hq.elim hdouble hsingle) fun he => absurd he hslash
  | blockComment body hbody =>
    have hpass := passes_blockComment surface (body ++ '*' :: '/' :: rest)
    rw [blockComment_closed hbody] at hpass
    exact hpass
  | lineComment body hbody =>
    have hpass := passes_lineComment surface (body ++ '\n' :: rest)
    rw [restOfLine_line hbody] at hpass
    exact hpass.append (passes_newline surface rest)
  | string quote body hbody =>
    have hpass := passes_quoted surface quote.char_eq (body ++ quote.char :: rest)
    rw [quoted_closed quote.char_ne_backslash hbody] at hpass
    exact hpass
  | openString quote body hbody =>
    -- The string stops before the line break, which is then passed over like any character.
    have hpass := passes_quoted surface quote.char_eq (body ++ '\n' :: rest)
    rw [quoted_open quote.char_ne_newline hbody] at hpass
    exact hpass.append (passes_newline surface rest)
  | rule r => exact absurd rfl (h r)

/-- Reading a segment finds the rule that it is, if it is one, and goes on behind it. -/
theorem Segment.rulesFrom_chars (s : Segment surface) (line byte : Nat) (rest : List Char) :
    (rulesFrom surface line byte (s.chars ++ rest)).map (·.rule) =
      (s.atRule? line).toList ++ (rulesFrom surface (line + lineBreaks s.chars)
        (byte + byteLength s.chars) rest).map (·.rule) := by
  by_cases h : ∃ r, s = rule r
  · obtain ⟨r, rfl⟩ := h
    have hchars : (rule r).chars = '@' :: (r.name ++ r.prelude) ++ r.stop.left := by
      simp only [chars, WrittenRule.chars, List.cons_append, List.append_assoc]
    have hsplit : (rule r).chars ++ rest =
        '@' :: (r.name ++ (r.prelude ++ (r.stop.left ++ rest))) := by
      simp only [hchars, List.cons_append, List.append_assoc]
    -- The rule is read, and a line break that ends it is passed over.
    rw [hsplit, r.readsRule, r.passes_left, hchars, lineBreaks_append, byteLength_append,
      List.map_cons, r.params_prelude, Nat.add_assoc, Nat.add_assoc]
    rfl
  · have hnone : s.atRule? line = none := by
      cases s with
      | rule r => exact absurd ⟨r, rfl⟩ h
      | _ => rfl
    rw [hnone, passes fun r hr => h ⟨r, hr⟩]
    rfl

/-- From any segment on, the rules that are read are those of the segments. -/
theorem rulesFrom_segments (segments : List (Segment surface)) (line byte : Nat) :
    (rulesFrom surface line byte (segments.flatMap Segment.chars)).map (·.rule) =
      rulesOf line segments := by
  induction segments generalizing line byte with
  | nil =>
    rw [List.flatMap_nil, rulesFrom]
    rfl
  | cons s segments ih => rw [List.flatMap_cons, s.rulesFrom_chars, ih, rulesOf]

/-- A stylesheet made of well-formed segments is read exactly: its rules are those of the segments,
in order, each with its name, its prelude, its parameters and its line. -/
theorem read_segments (segments : List (Segment surface)) :
    read surface (String.ofList (segments.flatMap Segment.chars)) =
      ⟨surface, rulesOf 1 segments⟩ := by
  rw [read, placedRules, String.toList_ofList, rulesFrom_segments]

-- A comment and two strings with one line break each, then one rule twice.
example :
    let uses : WrittenRule .indented :=
      { name := ['u', 's', 'e'], spacing := [' '], stop := .newline rfl
        params := [⟨[], .double, ['a', ';'], ['\t'], by simp, by simp [Quote.char], by simp; rfl⟩,
          ⟨[' '], .single, ['\x22', ','], [], by simp; rfl, by simp [Quote.char], by simp⟩]
        name_ne_nil := by simp, name_chars := List.all_eq_true.mp rfl
        spacing_chars := List.all_eq_true.mp rfl }
    rulesOf 1 [.blockComment ['\x27', '\n', '*'] (by decide),
        .openString .double ['@'] (.plain (by decide) .nil),
        .string .single ['\\', '\n'] (.escaped '\n' .nil), .rule uses, .rule uses] =
      [⟨"use", "\"a;\"\t, '\",'", ["a;", "\","], 4⟩,
        ⟨"use", "\"a;\"\t, '\",'", ["a;", "\","], 5⟩] := by
  decide

end SourceDeps.Stylesheet

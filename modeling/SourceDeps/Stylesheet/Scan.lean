import SourceDeps.Stylesheet.Basic

/-! Each scanner splits the characters from a place on into those that it takes and the rest, so
that nothing is lost or moved. -/

namespace SourceDeps.Stylesheet

/-- Characters split into those taken and the rest. -/
structure Taken where
  taken : List Char
  rest : List Char
  deriving DecidableEq, Repr

namespace Taken

def push (c : Char) (t : Taken) : Taken := ⟨c :: t.taken, t.rest⟩

/-- The characters that were split. -/
def all (t : Taken) : List Char := t.taken ++ t.rest

@[simp] theorem all_push (c : Char) (t : Taken) : (t.push c).all = c :: t.all := rfl

@[simp] theorem taken_push (c : Char) (t : Taken) : (t.push c).taken = c :: t.taken := rfl

@[simp] theorem rest_push (c : Char) (t : Taken) : (t.push c).rest = t.rest := rfl

theorem rest_length_le {t : Taken} {cs : List Char} (h : t.all = cs) :
    t.rest.length ≤ cs.length := by
  simp [← h, all]

end Taken

/-- The rest of a block comment after its opening mark: up to and with its closing mark, or all if
there is none. -/
def blockComment : List Char → Taken
  | '*' :: '/' :: cs => ⟨['*', '/'], cs⟩
  | c :: cs => (blockComment cs).push c
  | [] => ⟨[], []⟩

/-- The rest of a line, without its line break. -/
def restOfLine : List Char → Taken
  | '\n' :: cs => ⟨[], '\n' :: cs⟩
  | c :: cs => (restOfLine cs).push c
  | [] => ⟨[], []⟩

/-- The rest of a string after its opening quote: up to and with the same quote, or up to the end
of the line. A backslash takes the next character along. -/
def quoted (quote : Char) : List Char → Taken
  | [] => ⟨[], []⟩
  | ['\\'] => ⟨['\\'], []⟩
  | '\\' :: c :: cs => ((quoted quote cs).push c).push '\\'
  | c :: cs =>
    if c = quote then ⟨[c], cs⟩
    else if c = '\n' then ⟨[], c :: cs⟩
    else (quoted quote cs).push c

def isNameChar (c : Char) : Bool := c.isAlphanum || c == '-' || c == '_'

def ruleName : List Char → Taken
  | c :: cs => if isNameChar c then (ruleName cs).push c else ⟨[], c :: cs⟩
  | [] => ⟨[], []⟩

theorem all_blockComment (cs : List Char) : (blockComment cs).all = cs := by
  fun_induction blockComment cs <;> simp_all [Taken.all]

theorem all_restOfLine (cs : List Char) : (restOfLine cs).all = cs := by
  fun_induction restOfLine cs <;> simp_all [Taken.all]

theorem all_quoted (quote : Char) (cs : List Char) : (quoted quote cs).all = cs := by
  fun_induction quoted quote cs <;> simp_all [Taken.all]

theorem all_ruleName (cs : List Char) : (ruleName cs).all = cs := by
  fun_induction ruleName cs <;> simp_all [Taken.all]

/-- The prelude of a rule after its name, given the open parentheses and the character before. It
ends after a semicolon, and before a brace, a line comment or, where line breaks end it, a line
break; all of these only outside strings, comments and parentheses. Two slashes after a colon are
part of an address. -/
def prelude (surface : Surface) (depth : Nat) (previous : Char) (cs : List Char) : Taken :=
  match cs with
  | [] => ⟨[], []⟩
  | c :: cs =>
    if c = '\x22' ∨ c = '\x27' then
      let s := quoted c cs
      let r := prelude surface depth ((c :: s.taken).getLast (by simp)) s.rest
      ⟨c :: s.taken ++ r.taken, r.rest⟩
    else if c = '/' ∧ cs.head? = some '*' then
      let s := blockComment (cs.drop 1)
      let r := prelude surface depth (('*' :: s.taken).getLast (by simp)) s.rest
      ⟨c :: '*' :: s.taken ++ r.taken, r.rest⟩
    else if c = '/' ∧ cs.head? = some '/' ∧ depth = 0 ∧ previous ≠ ':' then ⟨[], c :: cs⟩
    else if c = '(' then (prelude surface (depth + 1) c cs).push c
    else if c = ')' then (prelude surface (depth - 1) c cs).push c
    else if c = ';' ∧ depth = 0 then ⟨[c], cs⟩
    else if (c = '\x7b' ∨ c = '\x7d') ∧ depth = 0 then ⟨[], c :: cs⟩
    else if c = '\n' ∧ depth = 0 ∧ surface.newlineEnds = true then ⟨[], c :: cs⟩
    else (prelude surface depth c cs).push c
termination_by cs.length
decreasing_by
  all_goals simp_wf
  · have hq := Taken.rest_length_le (all_quoted c cs)
    omega
  · have hb := Taken.rest_length_le (all_blockComment cs.tail)
    rw [List.length_tail] at hb
    omega

theorem all_prelude (surface : Surface) (depth : Nat) (previous : Char) (cs : List Char) :
    (prelude surface depth previous cs).all = cs := by
  fun_induction prelude surface depth previous cs with
  | case1 => rfl
  | case2 depth previous c cs _ s r ih =>
    have hs := all_quoted c cs
    simp only [Taken.all, List.cons_append, List.append_assoc] at *
    rw [ih, hs]
  | case3 depth previous c cs _ h s r ih =>
    have hs := all_blockComment (cs.drop 1)
    obtain ⟨rest, rfl⟩ : ∃ rest, cs = '*' :: rest := by
      cases cs <;> simp_all
    have hs : s.taken ++ s.rest = rest := hs
    simp only [Taken.all, List.cons_append, List.append_assoc] at *
    rw [ih, hs, h.1]
  | case4 | case7 | case8 | case9 => simp [Taken.all]
  | case5 | case6 | case10 => simp_all

end SourceDeps.Stylesheet

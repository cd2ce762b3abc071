import SourceDeps.Proofs.Stylesheet.Scan
import SourceDeps.Stylesheet.Reader

namespace SourceDeps.Stylesheet

open SourceDeps.Text

theorem lineBreaks_append (cs ds : List Char) :
    lineBreaks (cs ++ ds) = lineBreaks cs + lineBreaks ds :=
  List.count_append

theorem lineBreaks_cons {c : Char} (h : c ≠ '\n') (cs : List Char) :
    lineBreaks (c :: cs) = lineBreaks cs :=
  List.count_cons_of_ne h

theorem lineBreaks_eq_zero {cs : List Char} (h : ∀ c ∈ cs, c ≠ '\n') : lineBreaks cs = 0 :=
  List.count_eq_zero.mpr fun hm => h '\n' hm rfl

theorem lineBreaks_restOfLine (cs : List Char) : lineBreaks (restOfLine cs).taken = 0 := by
  fun_induction restOfLine cs with
  | case1 => rfl
  | case2 c cs hc ih =>
    rw [Taken.taken_push, lineBreaks_cons, ih]
    exact fun he => hc he
  | case3 => rfl

theorem ne_newline_of_isNameChar {c : Char} (h : isNameChar c = true) : c ≠ '\n' := by
  rintro rfl
  revert h
  decide

/-- The name of a rule is the longest run of name characters after its `@`. -/
theorem ruleName_maximal (cs : List Char) :
    (∀ c ∈ (ruleName cs).taken, isNameChar c = true) ∧
      ∀ c, (ruleName cs).rest.head? = some c → isNameChar c = false := by
  fun_induction ruleName cs with
  | case1 c cs hc ih =>
    refine ⟨fun d hd => ?_, ih.2⟩
    rcases List.mem_cons.mp hd with rfl | hd
    · exact hc
    · exact ih.1 d hd
  | case2 c cs hc =>
    refine ⟨List.forall_mem_nil _, fun d hd => ?_⟩
    obtain rfl : c = d := Option.some.inj hd
    simpa using hc
  | case3 => exact ⟨List.forall_mem_nil _, by simp⟩

variable (surface : Surface)

/-- Reading goes on behind some characters, in the line and at the byte that follow them. -/
def Passes (taken rest : List Char) : Prop :=
  ∀ line byte, rulesFrom surface line byte (taken ++ rest) =
    rulesFrom surface (line + lineBreaks taken) (byte + byteLength taken) rest

/-- Reading finds a rule with a given name and prelude, and goes on behind it. -/
def ReadsRule (name body rest : List Char) : Prop :=
  ∀ line byte, rulesFrom surface line byte ('@' :: (name ++ (body ++ rest))) =
    { rule := ⟨String.ofList name, String.ofList (trim body), params (trim body), line⟩
      start := byte
      stop := byte + byteLength ('@' :: (name ++ body)) } ::
      rulesFrom surface (line + lineBreaks ('@' :: (name ++ body)))
        (byte + byteLength ('@' :: (name ++ body))) rest

variable {surface}

theorem Passes.append {first second rest : List Char}
    (hfirst : Passes surface first (second ++ rest)) (hsecond : Passes surface second rest) :
    Passes surface (first ++ second) rest := by
  intro line byte
  rw [List.append_assoc, hfirst, hsecond, lineBreaks_append, byteLength_append, Nat.add_assoc,
    Nat.add_assoc]

variable (surface)

theorem passes_newline (cs : List Char) : Passes surface ['\n'] cs := by
  intro line byte
  rw [List.singleton_append, rulesFrom]
  rfl

theorem passes_blockComment (cs : List Char) :
    Passes surface ('/' :: '*' :: (blockComment cs).taken) (blockComment cs).rest := by
  intro line byte
  have hall : (blockComment cs).taken ++ (blockComment cs).rest = cs := all_blockComment cs
  have hbytes : byteLength ('/' :: '*' :: (blockComment cs).taken) =
      2 + byteLength (blockComment cs).taken := by
    rw [byteLength, byteLength, ← Nat.add_assoc]
    rfl
  rw [List.cons_append, List.cons_append, hall, rulesFrom, lineBreaks_cons (by decide),
    lineBreaks_cons (by decide), hbytes, Nat.add_assoc byte]

theorem passes_lineComment (cs : List Char) :
    Passes surface ('/' :: '/' :: (restOfLine cs).taken) (restOfLine cs).rest := by
  intro line byte
  have hall : (restOfLine cs).taken ++ (restOfLine cs).rest = cs := all_restOfLine cs
  have hbytes : byteLength ('/' :: '/' :: (restOfLine cs).taken) =
      2 + byteLength (restOfLine cs).taken := by
    rw [byteLength, byteLength, ← Nat.add_assoc]
    rfl
  rw [List.cons_append, List.cons_append, hall, rulesFrom, lineBreaks_cons (by decide),
    lineBreaks_cons (by decide), lineBreaks_restOfLine, hbytes, Nat.add_assoc byte, Nat.add_zero]

theorem passes_quoted {quote : Char} (hq : quote = '\x22' ∨ quote = '\x27') (cs : List Char) :
    Passes surface (quote :: (quoted quote cs).taken) (quoted quote cs).rest := by
  intro line byte
  have hall : (quoted quote cs).taken ++ (quoted quote cs).rest = cs := all_quoted quote cs
  have hsize : quote.utf8Size = 1 := by rcases hq with rfl | rfl <;> rfl
  have hne : quote ≠ '\n' := by rcases hq with rfl | rfl <;> decide
  rw [List.cons_append, hall, rulesFrom.eq_6, if_pos hq, lineBreaks_cons hne, byteLength, hsize,
    ← Nat.add_assoc]
  all_goals rcases hq with rfl | rfl <;> simp

theorem passes_lone_at {cs : List Char} (h : (ruleName cs).taken = []) :
    Passes surface ['@'] cs := by
  intro line byte
  rw [List.singleton_append, rulesFrom, h]
  rfl

theorem passes_other {c : Char} (hat : c ≠ '@') (hq : ¬(c = '\x22' ∨ c = '\x27')) {cs : List Char}
    (hslash : c = '/' → ∀ d, cs.head? = some d → d ≠ '*' ∧ d ≠ '/') :
    Passes surface [c] cs := by
  intro line byte
  by_cases hnewline : c = '\n'
  · subst hnewline
    exact passes_newline surface cs line byte
  · -- None of the special forms begins here, each ruled out by one side goal.
    rw [List.singleton_append, rulesFrom.eq_6, if_neg hq, lineBreaks_cons hnewline]
    · rfl
    · exact hnewline
    · rintro ds hc rfl
      exact absurd rfl (hslash hc '*' rfl).1
    · rintro ds hc rfl
      exact absurd rfl (hslash hc '/' rfl).2
    · exact hat

theorem readsRule {cs : List Char} {last : Char} (h : (ruleName cs).taken.getLast? = some last) :
    ReadsRule surface (ruleName cs).taken (prelude surface 0 last (ruleName cs).rest).taken
      (prelude surface 0 last (ruleName cs).rest).rest := by
  intro line byte
  have hname : (ruleName cs).taken ++ (ruleName cs).rest = cs := all_ruleName cs
  have hbody : (prelude surface 0 last (ruleName cs).rest).taken ++
      (prelude surface 0 last (ruleName cs).rest).rest = (ruleName cs).rest :=
    all_prelude surface 0 last (ruleName cs).rest
  have hbreaks : lineBreaks (ruleName cs).taken = 0 :=
    lineBreaks_eq_zero fun c hc => ne_newline_of_isNameChar ((ruleName_maximal cs).1 c hc)
  have hat : '@'.utf8Size = 1 := rfl
  rw [hbody, hname, rulesFrom, h, lineBreaks_cons (by decide), lineBreaks_append, hbreaks,
    Nat.zero_add, byteLength, byteLength_append, hat, ← Nat.add_assoc, ← Nat.add_assoc]

/-- A rule is read whose name ends where its prelude begins, and whose prelude is known. -/
theorem readsRule_of_prelude {name body rest : List Char} (hne : name ≠ [])
    (hname : ∀ c ∈ name, isNameChar c = true)
    (hhead : ∀ c, (body ++ rest).head? = some c → isNameChar c = false)
    (hbody : ∀ previous, prelude surface 0 previous (body ++ rest) = ⟨body, rest⟩) :
    ReadsRule surface name body rest := by
  have hruleName : ruleName (name ++ (body ++ rest)) = ⟨name, body ++ rest⟩ :=
    ruleName_append hname hhead
  have hlast : (ruleName (name ++ (body ++ rest))).taken.getLast? = some (name.getLast hne) := by
    rw [hruleName, List.getLast?_eq_some_getLast hne]
  have hread := readsRule surface hlast
  rw [hruleName, hbody] at hread
  exact hread

/-- A step either passes over some characters or reads a rule, and which of the two, with which
characters or name, is the same on every surface. -/
theorem passes_or_readsRule (c : Char) (cs : List Char) :
    (∃ taken rest, c :: cs = taken ++ rest ∧ taken ≠ [] ∧ ∀ surface, Passes surface taken rest) ∨
      ∃ name last behind, c :: cs = '@' :: (name ++ behind) ∧ name.getLast? = some last ∧
        (∀ d ∈ name, isNameChar d = true) ∧
        (∀ d, behind.head? = some d → isNameChar d = false) ∧
        ∀ surface, ReadsRule surface name (prelude surface 0 last behind).taken
          (prelude surface 0 last behind).rest := by
  by_cases hat : c = '@'
  · subst hat
    cases hlast : (ruleName cs).taken.getLast? with
    | none =>
      have hnil : (ruleName cs).taken = [] := List.getLast?_eq_none_iff.mp hlast
      exact .inl ⟨['@'], cs, rfl, by simp, fun surface => passes_lone_at surface hnil⟩
    | some last =>
      have hname : (ruleName cs).taken ++ (ruleName cs).rest = cs := all_ruleName cs
      exact .inr ⟨_, last, _, by rw [hname], hlast, (ruleName_maximal cs).1,
        (ruleName_maximal cs).2, fun surface => readsRule surface hlast⟩
  · -- Without a sign there is no rule: what is passed over depends on the first characters.
    left
    by_cases hq : c = '\x22' ∨ c = '\x27'
    · have hall := all_quoted c cs
      rw [Taken.all] at hall
      refine ⟨_, _, ?_, List.cons_ne_nil _ _, fun surface => passes_quoted surface hq cs⟩
      rw [List.cons_append, hall]
    · by_cases hcomment : c = '/' ∧ ∃ d ds, cs = d :: ds ∧ (d = '*' ∨ d = '/')
      · obtain ⟨rfl, d, ds, rfl, rfl | rfl⟩ := hcomment
        · have hall := all_blockComment ds
          rw [Taken.all] at hall
          refine ⟨_, _, ?_, List.cons_ne_nil _ _, fun surface => passes_blockComment surface ds⟩
          rw [List.cons_append, List.cons_append, hall]
        · have hall := all_restOfLine ds
          rw [Taken.all] at hall
          refine ⟨_, _, ?_, List.cons_ne_nil _ _, fun surface => passes_lineComment surface ds⟩
          rw [List.cons_append, List.cons_append, hall]
      · refine ⟨[c], cs, rfl, List.cons_ne_nil _ _, fun surface => passes_other surface hat hq ?_⟩
        intro hc d hd
        obtain ⟨ds, rfl⟩ := List.head?_eq_some_iff.mp hd
        exact ⟨fun h => hcomment ⟨hc, d, ds, rfl, .inl h⟩,
          fun h => hcomment ⟨hc, d, ds, rfl, .inr h⟩⟩

/-- Induction along the steps in which a text is read. -/
theorem reading_induction {motive : List Char → Prop} (nil : motive [])
    (pass : ∀ taken rest, (∀ surface, Passes surface taken rest) → motive rest →
      motive (taken ++ rest))
    (rule : ∀ name last behind, name.getLast? = some last → (∀ d ∈ name, isNameChar d = true) →
      (∀ d, behind.head? = some d → isNameChar d = false) →
      (∀ surface, ReadsRule surface name (prelude surface 0 last behind).taken
        (prelude surface 0 last behind).rest) →
      (∀ surface, motive (prelude surface 0 last behind).rest) →
      motive ('@' :: (name ++ behind)))
    (cs : List Char) : motive cs := by
  induction hlen : cs.length using Nat.strongRecOn generalizing cs with
  | ind n ih =>
    subst hlen
    cases cs with
    | nil => exact nil
    | cons c cs =>
      rcases passes_or_readsRule c cs with
        ⟨taken, rest, hsplit, hne, hpass⟩ | ⟨name, last, behind, hsplit, hlast, hname, hend, hread⟩
      · have hlt : rest.length < (c :: cs).length := by
          have hpos := List.length_pos_iff.mpr hne
          rw [hsplit, List.length_append]
          omega
        rw [hsplit]
        exact pass taken rest hpass (ih rest.length hlt rest rfl)
      · rw [hsplit]
        refine rule name last behind hlast hname hend hread fun surface => ?_
        have hle := Taken.rest_length_le (all_prelude surface 0 last behind)
        have hlt : (prelude surface 0 last behind).rest.length < (c :: cs).length := by
          rw [hsplit, List.length_cons, List.length_append]
          omega
        exact ih _ hlt _ rfl

/-- The bytes before a place do not show in the rules from there on. -/
theorem map_rule_rulesFrom (surface : Surface) (line byte byte' : Nat) (cs : List Char) :
    (rulesFrom surface line byte cs).map (·.rule) =
      (rulesFrom surface line byte' cs).map (·.rule) := by
  induction cs using reading_induction generalizing line byte byte' with
  | nil => rw [rulesFrom, rulesFrom]
  | pass taken rest hpass ih =>
    rw [hpass, hpass]
    exact ih _ _ _
  | rule name last behind hlast hname hend hread ih =>
    have hall : (prelude surface 0 last behind).taken ++ (prelude surface 0 last behind).rest =
        behind := all_prelude surface 0 last behind
    have hread := hread surface
    rw [ReadsRule, hall] at hread
    rw [hread, hread, List.map_cons, List.map_cons]
    exact congrArg _ (ih surface _ _ _)

/-- What is passed over without a line break leaves the rules behind it as they are. -/
theorem Passes.rules_eq {surface : Surface} {taken rest : List Char}
    (h : Passes surface taken rest) (hbreaks : lineBreaks taken = 0) :
    (read surface (String.ofList (taken ++ rest))).rules =
      (read surface (String.ofList rest)).rules := by
  simp only [read, placedRules, String.toList_ofList]
  rw [h, hbreaks, Nat.add_zero]
  exact map_rule_rulesFrom surface 1 _ 0 rest

end SourceDeps.Stylesheet

import SourceDeps.Proofs.Stylesheet.Step
import SourceDeps.Proofs.Text.Utf8

namespace SourceDeps.Stylesheet

open SourceDeps.Text

variable (surface : Surface)

/-- A prelude that takes no line break where none would end it is the same where line breaks end
preludes. -/
theorem prelude_eq_scss {depth : Nat} {previous : Char} {cs : List Char}
    (h : '\n' ∉ (prelude .scss depth previous cs).taken) :
    prelude surface depth previous cs = prelude .scss depth previous cs := by
  fun_induction prelude .scss depth previous cs with
  | case1 depth previous => rw [prelude]
  | case2 depth previous c cs hquote s r ih =>
    have ih := ih fun hmem => h (List.mem_append_right _ hmem)
    rw [prelude, if_pos hquote]
    exact congrArg (fun t => Taken.mk (c :: s.taken ++ t.taken) t.rest) ih
  | case3 depth previous c cs hquote hcomment s r ih =>
    have ih := ih fun hmem => h (List.mem_append_right _ hmem)
    rw [prelude, if_neg hquote, if_pos hcomment]
    exact congrArg (fun t => Taken.mk (c :: '*' :: s.taken ++ t.taken) t.rest) ih
  | case4 depth previous c cs hquote hcomment hline =>
    rw [prelude, if_neg hquote, if_neg hcomment, if_pos hline]
  | case5 depth previous cs hquote hcomment hline ih =>
    have ih := ih fun hmem => h (List.mem_cons_of_mem _ hmem)
    rw [prelude, if_neg hquote, if_neg hcomment, if_neg hline, if_pos rfl, ih]
  | case6 depth previous cs hquote hcomment hline hopen ih =>
    have ih := ih fun hmem => h (List.mem_cons_of_mem _ hmem)
    rw [prelude, if_neg hquote, if_neg hcomment, if_neg hline, if_neg hopen, if_pos rfl, ih]
  | case7 depth previous c cs hquote hcomment hline hopen hclose hsemicolon =>
    rw [prelude, if_neg hquote, if_neg hcomment, if_neg hline, if_neg hopen, if_neg hclose,
      if_pos hsemicolon]
  | case8 depth previous c cs hquote hcomment hline hopen hclose hsemicolon hbrace =>
    rw [prelude, if_neg hquote, if_neg hcomment, if_neg hline, if_neg hopen, if_neg hclose,
      if_neg hsemicolon, if_pos hbrace]
  | case9 depth previous c cs _ _ _ _ _ _ _ hnewline => cases hnewline.2.2
  | case10 depth previous c cs hquote hcomment hline hopen hclose hsemicolon hbrace _ ih =>
    have ih := ih fun hmem => h (List.mem_cons_of_mem c hmem)
    have hc : c ≠ '\n' := fun hc => h (hc ▸ List.mem_cons_self)
    rw [prelude, if_neg hquote, if_neg hcomment, if_neg hline, if_neg hopen, if_neg hclose,
      if_neg hsemicolon, if_neg hbrace, if_neg fun hnewline => hc hnewline.1, ih]

/-- The bytes of a text that a rule takes, from its sign to where its prelude stops. -/
def PlacedRule.bytesIn (r : PlacedRule) (text : String) : List UInt8 :=
  (text.toUTF8.data.toList.take r.stop).drop r.start

theorem bytesIn_eq {r : PlacedRule} {text : String} {left taken right : List Char}
    (htext : text.toList = left ++ (taken ++ right)) (hstart : r.start = byteLength left)
    (hstop : r.stop = byteLength left + byteLength taken) : r.bytesIn text = utf8 taken := by
  rw [PlacedRule.bytesIn, toUTF8_bytes, htext, ← List.append_assoc, utf8_append, hstart, hstop,
    ← byteLength_append, List.take_left' (length_utf8 _), utf8_append,
    List.drop_left' (length_utf8 _)]

/-- From a place in a text on, rules without line breaks are read alike. -/
theorem rulesFrom_eq_scss {text : String} (left : List Char) {cs : List Char}
    (htext : text.toList = left ++ cs) (line : Nat)
    (h : ∀ r ∈ rulesFrom .scss line (byteLength left) cs, '\n'.toUInt8 ∉ r.bytesIn text) :
    rulesFrom surface line (byteLength left) cs = rulesFrom .scss line (byteLength left) cs := by
  induction cs using reading_induction generalizing left line with
  | nil => rw [rulesFrom, rulesFrom]
  | pass taken rest hpass ih =>
    rw [hpass, ← byteLength_append] at h
    rw [hpass, hpass, ← byteLength_append]
    exact ih (left ++ taken) (by rw [htext, List.append_assoc]) _ h
  | rule name last behind hlast hname hend hread ih =>
    obtain ⟨body, hbody⟩ : ∃ body, prelude .scss 0 last behind = body := ⟨_, rfl⟩
    have hall : body.taken ++ body.rest = behind := hbody ▸ all_prelude .scss 0 last behind
    have hscss := hread .scss
    rw [ReadsRule, hbody, hall] at hscss
    rw [hscss, List.forall_mem_cons] at h
    obtain ⟨hfirst, hlater⟩ := h
    -- Since the rule is on one line, its prelude is the same on the other surface.
    have htaken : text.toList = left ++ ('@' :: (name ++ body.taken) ++ body.rest) := by
      rw [htext, List.cons_append, List.append_assoc, hall]
    rw [bytesIn_eq htaken rfl rfl, mem_utf8 (by decide)] at hfirst
    have hbreak : '\n' ∉ (prelude .scss 0 last behind).taken := fun hmem =>
      hfirst (List.mem_cons_of_mem _ (List.mem_append_right _ (hbody ▸ hmem)))
    have hsurface := hread surface
    rw [prelude_eq_scss surface hbreak, ReadsRule, hbody, hall] at hsurface
    have hrest := ih .scss (left ++ '@' :: (name ++ body.taken))
    rw [hbody, byteLength_append] at hrest
    rw [hscss, hsurface, hrest (by rw [htaken, List.append_assoc]) _ hlater]

/-- Where no rule of a text takes a line break, read with braces and semicolons, the other surfaces
give the same rules. -/
theorem rules_eq_scss {text : String}
    (h : ∀ r ∈ placedRules .scss text, '\n'.toUInt8 ∉ r.bytesIn text) :
    placedRules surface text = placedRules .scss text ∧
      (read surface text).rules = (read .scss text).rules := by
  have hplaced : placedRules surface text = placedRules .scss text :=
    rulesFrom_eq_scss surface [] (List.nil_append text.toList).symm 1 h
  exact ⟨hplaced, congrArg (List.map PlacedRule.rule) hplaced⟩

/-- A sheet with line breaks between its rules only. -/
def oneLineText : String :=
  "@use 'é', \"b\";\n.x \x7b c: d \x7d\n@media (a) \x7b\n@import 'e';\n\x7d\n"

theorem oneLineText_read :
    (∀ r ∈ placedRules .scss oneLineText, '\n'.toUInt8 ∉ r.bytesIn oneLineText) ∧
    (read .indented oneLineText).rules = (read .scss oneLineText).rules ∧
    (read .stylus oneLineText).rules =
      [⟨"use", "'é', \"b\";", ["é", "b"], 1⟩, ⟨"media", "(a)", [], 3⟩,
        ⟨"import", "'e';", ["e"], 4⟩] := by
  have hlines : ∀ r ∈ placedRules .scss oneLineText, '\n'.toUInt8 ∉ r.bytesIn oneLineText := by
    decide +kernel
  refine ⟨hlines, (rules_eq_scss .indented hlines).2, ?_⟩
  rw [(rules_eq_scss .stylus hlines).2]
  decide +kernel

end SourceDeps.Stylesheet

import SourceDeps.Proofs.Stylesheet.ByteProgress
import SourceDeps.Proofs.Stylesheet.ByteScan
import SourceDeps.Proofs.Stylesheet.Params
import SourceDeps.Proofs.Stylesheet.Step

namespace SourceDeps.Stylesheet.ByteReader

open SourceDeps.Text

section cuts

theorem splitAtByte?_append (front rest : List Char) :
    splitAtByte? (byteLength front) (front ++ rest) = some (front, rest) := by
  induction front with
  | nil => cases rest <;> rfl
  | cons c front ih =>
    obtain ⟨n, hn⟩ := Nat.exists_eq_add_one.mpr (Char.utf8Size_pos c)
    have hlen : byteLength (c :: front) = n + byteLength front + 1 := by
      rw [byteLength, hn]
      omega
    have hrest : n + byteLength front + 1 - c.utf8Size = byteLength front := by omega
    rw [hlen, List.cons_append, splitAtByte?, if_pos (by omega), hrest, ih]
    rfl

theorem eq_of_splitAtByte? {n : Nat} {cs front rest : List Char}
    (h : splitAtByte? n cs = some (front, rest)) : cs = front ++ rest ∧ n = byteLength front := by
  fun_induction splitAtByte? n cs generalizing front rest with
  | case1 cs =>
    obtain ⟨rfl, rfl⟩ := Prod.mk.inj (Option.some.inj h)
    exact ⟨rfl, rfl⟩
  | case2 n => cases h
  | case3 n c cs hle ih =>
    obtain ⟨⟨front', rest'⟩, hsplit, heq⟩ := Option.map_eq_some_iff.mp h
    obtain ⟨rfl, rfl⟩ := Prod.mk.inj heq
    obtain ⟨rfl, hn⟩ := ih hsplit
    refine ⟨rfl, ?_⟩
    rw [byteLength, ← hn]
    omega
  | case4 n c cs hle => cases h

/-- A stretch of a text is cut out if and only if it is there between two characters. -/
theorem cutText_eq_pure {cs stretch : List Char} {start stop : Nat} :
    cutText cs start stop = pure stretch ↔
      ∃ left right, cs = left ++ (stretch ++ right) ∧ start = byteLength left ∧
        stop = byteLength (left ++ stretch) := by
  constructor
  · intro h
    rw [cutText] at h
    split at h
    · rename_i front stretch' hsplit
      obtain ⟨⟨whole, right⟩, hstop, hstart⟩ := Option.bind_eq_some_iff.mp hsplit
      obtain rfl : stretch' = stretch := pure_inj.mp h
      obtain ⟨rfl, hstopLength⟩ := eq_of_splitAtByte? hstop
      obtain ⟨rfl, hstartLength⟩ := eq_of_splitAtByte? hstart
      exact ⟨front, right, List.append_assoc _ _ _, hstartLength, hstopLength⟩
    · exact absurd h (throw_ne_pure _ _)
  · rintro ⟨left, right, rfl, rfl, rfl⟩
    have hwhole := splitAtByte?_append (left ++ stretch) right
    rw [List.append_assoc left] at hwhole
    have hstretch := splitAtByte?_append left stretch
    rw [cutText, hwhole, Option.bind_some]
    simp only [hstretch]

end cuts

section parameters

theorem modifyHead_nil_append (ps : List (List Char)) : ps.modifyHead ([] ++ ·) = ps :=
  congrFun List.modifyHead_id ps

/-- The loop over the characters cuts out the outer parts one after the other, given the characters
of the current part and where it begins. -/
theorem foldlM_step {body before current cs : List Char} (h : body = before ++ (current ++ cs))
    (cut : List (List Char)) (nesting : Nesting) :
    ∃ s last, (charIndices (byteLength (before ++ current)) cs).foldlM (Cutting.step body)
        ⟨cut, byteLength before, nesting⟩ = pure s ∧
      cutText body s.start (byteLength body) = pure last ∧
      s.parts ++ [last] = cut ++ (parts nesting cs).modifyHead (current ++ ·) := by
  induction cs generalizing before current cut nesting with
  | nil =>
    refine ⟨⟨cut, byteLength before, nesting⟩, current, rfl, ?_, ?_⟩
    · refine cutText_eq_pure.mpr ⟨before, [], h, rfl, ?_⟩
      rw [h, List.append_nil]
    · rw [parts, List.modifyHead_cons, List.append_nil]
  | cons c cs ih =>
    rw [charIndices, List.foldlM_cons]
    cases hc : nesting.separates c with
    | true =>
      obtain ⟨rfl, rfl⟩ := separates_iff.mp hc
      have hpart : cutText body (byteLength before) (byteLength (before ++ current)) =
          pure current := cutText_eq_pure.mpr ⟨before, ',' :: cs, h, rfl, rfl⟩
      have hrest : body = before ++ current ++ [','] ++ ([] ++ cs) := by
        rw [h, List.nil_append, ← List.append_cons, List.append_assoc]
      obtain ⟨s, last, hfold, hlast, hparts⟩ := ih hrest (cut ++ [current]) {}
      rw [List.append_nil, byteLength_append (before ++ current)] at hfold
      refine ⟨s, last, ?_, hlast, ?_⟩
      · rw [Cutting.step, if_pos hc, hpart, pure_bind, pure_bind]
        exact hfold
      · rw [hparts, parts_separator hc, modifyHead_nil_append, List.modifyHead_cons,
          List.append_nil, List.append_assoc, List.singleton_append]
    | false =>
      have hrest : body = before ++ (current ++ [c] ++ cs) := by
        rw [h, ← List.append_cons]
      obtain ⟨s, last, hfold, hlast, hparts⟩ := ih hrest cut (nesting.after c)
      rw [← List.append_assoc, byteLength_append] at hfold
      refine ⟨s, last, ?_, hlast, ?_⟩
      · rw [Cutting.step, if_neg (by rw [hc]; exact Bool.false_ne_true), pure_bind]
        exact hfold
      · rw [hparts, parts_cons hc, List.modifyHead_modifyHead]
        congr 2
        funext part
        exact (List.append_cons current c part).symm

theorem splitParams_eq (text : List Char) : splitParams text = pure (params text) := by
  have hbody : dropSemicolons text = [] ++ ([] ++ dropSemicolons text) := rfl
  obtain ⟨s, last, hfold, hlast, hparts⟩ := foldlM_step hbody [] {}
  have hfold' : (charIndices 0 (dropSemicolons text)).foldlM
      (Cutting.step (dropSemicolons text)) {} = pure s := hfold
  rw [splitParams, hfold', pure_bind, hlast, pure_bind, hparts, modifyHead_nil_append, params]
  rfl

end parameters

section reading

variable (surface : Surface) {text left taken rest cs : List Char} {c : Char}

theorem readStep_goesOver (text : List Char) (line : Nat) (rules : List AtRule) :
    GoesOver (readStep surface (utf8 text) text) (fun k => ⟨k, line, rules⟩) (utf8 text) := by
  intro k y hk hy
  have hlt : k < (utf8 text).length := (List.getElem?_eq_some_iff.mp hk).1
  have hne (d : Char) (hd : d.toNat < 128) : y ≠ d.toUInt8 := ne_of_le hy hd
  refine loop_next ?_
  rw [readStep, if_pos hlt, byteAt_eq hk, pure_bind]
  simp [hne '\n', hne '/', hne '\x22', hne '\x27', hne '@']

theorem readStep_char (line : Nat) (rules : List AtRule) (h : text = left ++ c :: cs) :
    readStep surface (utf8 text) text ⟨byteLength left, line, rules⟩ =
      if c = '\n' then pure (.inl ⟨byteLength left + 1, line + 1, rules⟩)
      else if c = '/' ∧ cs.head? = some '*' then do
        let stop ← commentEnd (utf8 text) (byteLength left)
        .inl <$> skipTo (utf8 text) ⟨byteLength left, line, rules⟩ stop
      else if c = '/' ∧ cs.head? = some '/' then do
        let stop ← lineEnd (utf8 text) (byteLength left)
        pure (.inl ⟨stop, line, rules⟩)
      else if c = '\x22' ∨ c = '\x27' then do
        let stop ← stringEnd (utf8 text) (lead c) (byteLength left)
        .inl <$> skipTo (utf8 text) ⟨byteLength left, line, rules⟩ stop
      else if c = '@' then
        .inl <$> ruleStep surface (utf8 text) text ⟨byteLength left, line, rules⟩
      else pure (.inl ⟨byteLength left + 1, line, rules⟩) := by
  rw [readStep, if_pos (lt_length_utf8 h), byteAt_eq (getElem?_utf8 h), pure_bind]
  have hlead (d : Char) (hd : d.toNat < 128) : lead c = d.toUInt8 ↔ c = d := lead_eq_iff hd
  simp only [slash_then_iff h '*' (by decide), slash_then_iff h '/' (by decide)]
  simp only [hlead '\n' (by decide), hlead '\x22' (by decide), hlead '\x27' (by decide),
    hlead '@' (by decide)]

theorem skipTo_eq (line : Nat) (rules : List AtRule) (h : text = left ++ (taken ++ rest)) :
    skipTo (utf8 text) ⟨byteLength left, line, rules⟩ (byteLength (left ++ taken)) =
      pure ⟨byteLength (left ++ taken), line + lineBreaks taken, rules⟩ := by
  have hnewline : '\n'.toNat < 128 := by decide
  rw [skipTo, cutBytes_utf8 h, pure_bind, count_utf8 hnewline, lineBreaks]

theorem ruleStep_lone (line : Nat) (rules : List AtRule) (h : text = left ++ '@' :: cs)
    (hname : (ruleName cs).taken = []) :
    ruleStep surface (utf8 text) text ⟨byteLength left, line, rules⟩ =
      pure ⟨byteLength (left ++ ['@']), line, rules⟩ := by
  have hat : '@'.toNat < 128 := by decide
  have hstop := nameEnd_eq (h.trans (List.append_cons left '@' cs))
  rw [hname, List.append_nil, byteLength_concat_of_lt hat] at hstop
  rw [ruleStep, hstop, pure_bind, if_pos rfl, byteLength_concat_of_lt hat]

theorem byteLength_ne_zero {cs : List Char} (h : cs ≠ []) : byteLength cs ≠ 0 := by
  cases cs with
  | nil => exact absurd rfl h
  | cons c cs =>
    have hpos := Char.utf8Size_pos c
    rw [byteLength]
    omega

theorem ruleStep_named (line : Nat) (rules : List AtRule) {name body : List Char} {last : Char}
    (h : text = left ++ '@' :: (name ++ (body ++ rest))) (hlast : name.getLast? = some last)
    (hname : (ruleName (name ++ (body ++ rest))).taken = name)
    (hbody : (prelude surface 0 last (body ++ rest)).taken = body) :
    ruleStep surface (utf8 text) text ⟨byteLength left, line, rules⟩ =
      pure ⟨byteLength (left ++ '@' :: (name ++ body)), line + lineBreaks ('@' :: (name ++ body)),
        rules ++ [⟨String.ofList name, String.ofList (trim body), params (trim body), line⟩]⟩ := by
  have hat : '@'.toNat < 128 := by decide
  have hnewline : '\n'.toNat < 128 := by decide
  have hsign : text = left ++ ['@'] ++ (name ++ (body ++ rest)) :=
    h.trans (List.append_cons left '@' _)
  have hbehind : text = left ++ ['@'] ++ name ++ (body ++ rest) := by
    rw [hsign, List.append_assoc _ name]
  have htaken : text = left ++ ('@' :: (name ++ body) ++ rest) := by
    rw [h, List.cons_append, List.append_assoc]
  have hjoined : left ++ ['@'] ++ name ++ body = left ++ '@' :: (name ++ body) := by
    rw [List.append_assoc, ← List.append_cons]
  -- The name is cut out behind the sign, and is not empty.
  have hnameEnd := nameEnd_eq hsign
  rw [hname] at hnameEnd
  have hne : byteLength (left ++ ['@'] ++ name) ≠ byteLength (left ++ ['@']) := by
    have hpos : byteLength name ≠ 0 := byteLength_ne_zero (by rintro rfl; cases hlast)
    rw [byteLength_append _ name]
    omega
  have hcutName : cutText text (byteLength (left ++ ['@'])) (byteLength (left ++ ['@'] ++ name)) =
      pure name := cutText_eq_pure.mpr ⟨left ++ ['@'], _, hsign, rfl, rfl⟩
  -- The prelude is cut out behind the name.
  have hprevious : (left ++ ['@'] ++ name).getLast? = some last := by
    rw [List.getLast?_append, hlast, Option.some_or]
  have hpreludeEnd := loop_preludeStep surface 0 hbehind (endsAs_of_getLast? hprevious)
  rw [hbody, ← preludeEnd] at hpreludeEnd
  have hcutBody : cutText text (byteLength (left ++ ['@'] ++ name))
      (byteLength (left ++ ['@'] ++ name ++ body)) = pure body :=
    cutText_eq_pure.mpr ⟨left ++ ['@'] ++ name, _, hbehind, rfl, rfl⟩
  rw [ruleStep]
  simp only [← byteLength_concat_of_lt hat]
  rw [hnameEnd, pure_bind, if_neg hne, hcutName, pure_bind, hpreludeEnd, pure_bind, hcutBody,
    pure_bind, splitParams_eq, pure_bind, hjoined, cutBytes_utf8 htaken, pure_bind,
    count_utf8 hnewline, lineBreaks]

/-- What the byte reader gives from behind `left` on, with the line there and the rules before. -/
def readFrom (text left : List Char) (line : Nat) (rules : List AtRule) : Run (List AtRule) :=
  loop (readStep surface (utf8 text) text) ⟨byteLength left, line, rules⟩

variable {surface}

variable {line : Nat} {rules : List AtRule}

theorem readFrom_skip (h : text = left ++ (taken ++ rest))
    (hstep : readStep surface (utf8 text) text ⟨byteLength left, line, rules⟩ =
      .inl <$> skipTo (utf8 text) ⟨byteLength left, line, rules⟩ (byteLength (left ++ taken))) :
    readFrom surface text left line rules =
      readFrom surface text (left ++ taken) (line + lineBreaks taken) rules := by
  rw [skipTo_eq line rules h, map_pure] at hstep
  exact loop_next hstep

theorem readFrom_newline (h : text = left ++ '\n' :: cs) :
    readFrom surface text left line rules =
      readFrom surface text (left ++ ['\n']) (line + 1) rules := by
  have hstep := readStep_char surface line rules h
  rw [if_pos rfl] at hstep
  rw [readFrom, loop_next hstep, readFrom, byteLength_concat_of_lt (by decide)]

theorem readFrom_blockComment (h : text = left ++ '/' :: '*' :: cs) :
    readFrom surface text left line rules =
      readFrom surface text (left ++ '/' :: '*' :: (blockComment cs).taken)
        (line + lineBreaks (blockComment cs).taken) rules := by
  have hall : (blockComment cs).taken ++ (blockComment cs).rest = cs := all_blockComment cs
  have hsplit : text =
      left ++ ('/' :: '*' :: (blockComment cs).taken ++ (blockComment cs).rest) := by
    rw [h, List.cons_append, List.cons_append, hall]
  have hstep := readStep_char surface line rules h
  rw [if_neg (by decide), if_pos ⟨rfl, rfl⟩, commentEnd_eq h, pure_bind] at hstep
  rw [readFrom_skip hsplit hstep, lineBreaks_cons (by decide), lineBreaks_cons (by decide)]

theorem readFrom_lineComment (h : text = left ++ '/' :: '/' :: cs) :
    readFrom surface text left line rules =
      readFrom surface text (left ++ '/' :: '/' :: (restOfLine cs).taken) line rules := by
  have htaken : (restOfLine ('/' :: '/' :: cs)).taken = '/' :: '/' :: (restOfLine cs).taken := rfl
  have hstep := readStep_char surface line rules h
  rw [if_neg (by decide), if_neg (by simp), if_pos ⟨rfl, rfl⟩, lineEnd_eq h, pure_bind,
    htaken] at hstep
  exact loop_next hstep

theorem readFrom_string (hquote : c = '\x22' ∨ c = '\x27') (h : text = left ++ c :: cs) :
    readFrom surface text left line rules =
      readFrom surface text (left ++ c :: (quoted c cs).taken)
        (line + lineBreaks (quoted c cs).taken) rules := by
  have hascii : c.toNat < 128 := toNat_lt_of_quote hquote
  have hall : (quoted c cs).taken ++ (quoted c cs).rest = cs := all_quoted c cs
  have hsplit : text = left ++ (c :: (quoted c cs).taken ++ (quoted c cs).rest) := by
    rw [h, List.cons_append, hall]
  have hnewline : c ≠ '\n' := by rcases hquote with rfl | rfl <;> decide
  have hslash : c ≠ '/' := by rcases hquote with rfl | rfl <;> decide
  have hstep := readStep_char surface line rules h
  rw [if_neg hnewline, if_neg fun hc => hslash hc.1, if_neg fun hc => hslash hc.1, if_pos hquote,
    (bytes_of_lt hascii).1, stringEnd_eq hascii h, pure_bind] at hstep
  rw [readFrom_skip hsplit hstep, lineBreaks_cons hnewline]

theorem readFrom_lone (h : text = left ++ '@' :: cs) (hname : (ruleName cs).taken = []) :
    readFrom surface text left line rules = readFrom surface text (left ++ ['@']) line rules := by
  have hstep := readStep_char surface line rules h
  rw [if_neg (by decide), if_neg (by simp), if_neg (by simp), if_neg (by decide), if_pos rfl,
    ruleStep_lone surface line rules h hname, map_pure] at hstep
  exact loop_next hstep

theorem readFrom_rule (h : text = left ++ '@' :: cs) {last : Char}
    (hlast : (ruleName cs).taken.getLast? = some last) {body : Taken}
    (hbody : prelude surface 0 last (ruleName cs).rest = body) :
    readFrom surface text left line rules =
      readFrom surface text (left ++ '@' :: ((ruleName cs).taken ++ body.taken))
        (line + lineBreaks body.taken)
        (rules ++ [⟨String.ofList (ruleName cs).taken, String.ofList (trim body.taken),
          params (trim body.taken), line⟩]) := by
  have hnameAll : (ruleName cs).taken ++ (ruleName cs).rest = cs := all_ruleName cs
  have hbodyAll : body.taken ++ body.rest = (ruleName cs).rest :=
    hbody ▸ all_prelude surface 0 last (ruleName cs).rest
  have hsplit : text = left ++ '@' :: ((ruleName cs).taken ++ (body.taken ++ body.rest)) := by
    rw [hbodyAll, hnameAll, h]
  have hbreaks : lineBreaks (ruleName cs).taken = 0 :=
    lineBreaks_eq_zero fun c hc => ne_newline_of_isNameChar ((ruleName_maximal cs).1 c hc)
  have hread := ruleStep_named surface line rules hsplit hlast (by rw [hbodyAll, hnameAll])
    (by rw [hbodyAll, hbody])
  have hstep := readStep_char surface line rules h
  rw [if_neg (by decide), if_neg (by simp), if_neg (by simp), if_neg (by decide), if_pos rfl,
    hread, map_pure, lineBreaks_cons (by decide), lineBreaks_append, hbreaks, Nat.zero_add] at hstep
  exact loop_next hstep

theorem readFrom_other (h : text = left ++ c :: cs) (hnewline : c ≠ '\n')
    (hslash : c = '/' → cs.head? ≠ some '*' ∧ cs.head? ≠ some '/') (hat : c ≠ '@')
    (hquote : ¬(c = '\x22' ∨ c = '\x27')) :
    readFrom surface text left line rules = readFrom surface text (left ++ [c]) line rules := by
  have hover := readStep_goesOver surface text line rules
  have hstep := readStep_char surface line rules h
  rw [if_neg hnewline, if_neg fun hc => (hslash hc.1).1 hc.2, if_neg fun hc => (hslash hc.1).2 hc.2,
    if_neg hquote, if_neg hat] at hstep
  exact (loop_next hstep).trans (loop_more hover h)

variable (surface)

/-- From any place in a text on, the byte reader gives the rules that the reader of characters
gives. -/
theorem readFrom_eq (line byte : Nat) (rules : List AtRule) (h : text = left ++ cs) :
    readFrom surface text left line rules =
      pure (rules ++ (rulesFrom surface line byte cs).map (·.rule)) := by
  fun_induction rulesFrom surface line byte cs generalizing left rules with
  | case1 line byte =>
    have hend : ¬ byteLength left < (utf8 text).length := by
      rw [length_utf8_end h]
      exact Nat.lt_irrefl _
    rw [List.map_nil, List.append_nil]
    exact loop_done (if_neg hend)
  | case2 line byte cs ih =>
    rw [readFrom_newline h, ih _ (h.trans (List.append_cons left _ cs))]
  | case3 line byte cs s =>
    rename_i ih
    have hall : s.taken ++ s.rest = cs := all_blockComment cs
    rw [readFrom_blockComment h]
    exact ih _ (by rw [h, List.append_assoc, List.cons_append, List.cons_append, hall])
  | case4 line byte cs s =>
    rename_i ih
    have hall : s.taken ++ s.rest = cs := all_restOfLine cs
    rw [readFrom_lineComment h]
    exact ih _ (by rw [h, List.append_assoc, List.cons_append, List.cons_append, hall])
  | case5 line byte cs name hnone =>
    rename_i ih
    rw [readFrom_lone h (List.getLast?_eq_none_iff.mp hnone),
      ih _ (h.trans (List.append_cons left _ cs))]
  | case6 line byte cs name last hlast body =>
    rename_i ih
    have hname : name.taken ++ name.rest = cs := all_ruleName cs
    have hbody : body.taken ++ body.rest = name.rest := all_prelude surface 0 last name.rest
    have hrest : text = left ++ '@' :: (name.taken ++ body.taken) ++ body.rest := by
      rw [h, List.append_assoc, List.cons_append, List.append_assoc, hbody, hname]
    have hrule : readFrom surface text left line rules = _ := readFrom_rule h hlast rfl
    rw [hrule, ih _ hrest, List.map_cons, List.append_assoc]
    rfl
  | case7 line byte c cs hnewline hcomment hline hat hquote s =>
    rename_i ih
    have hall : s.taken ++ s.rest = cs := all_quoted c cs
    rw [readFrom_string hquote h]
    exact ih _ (by rw [h, List.append_assoc, List.cons_append, hall])
  | case8 line byte c cs hnewline hcomment hline hat hquote ih =>
    rw [readFrom_other h hnewline ?_ hat hquote, ih _ (h.trans (List.append_cons left c cs))]
    refine fun hc => ⟨fun hstar => ?_, fun hslash => ?_⟩
    · obtain ⟨ds, hds⟩ := List.head?_eq_some_iff.mp hstar
      exact hcomment ds hc hds
    · obtain ⟨ds, hds⟩ := List.head?_eq_some_iff.mp hslash
      exact hline ds hc hds

end reading

/-- The byte reader reads every text without a fault, and gives the stylesheet that the reader of
characters gives. Every step of it moves on, and so does every step of its scans, whatever the bytes
are. -/
theorem readBytes_eq_read (surface : Surface) (text : String) :
    readBytes surface text = pure (Stylesheet.read surface text) ∧
    ∀ b : List UInt8,
      (∀ cs, Advances State.index (readStep surface b cs)) ∧
      Advances Prod.snd (preludeStep surface b) ∧ (∀ quote, Advances id (stringStep b quote)) ∧
      Advances id (commentStep b) ∧ Advances id (nameStep b) := by
  refine ⟨?_, fun b => ⟨fun cs => readStep_advances, (preludeStep_scans surface b).advances,
    fun quote => (stringStep_scans b quote).advances, (commentStep_scans b).advances,
    nameStep_advances b⟩⟩
  have hread : loop (readStep surface (utf8 text.toList) text.toList) ⟨0, 1, []⟩ =
      pure (Stylesheet.read surface text).rules :=
    readFrom_eq surface 1 0 [] (List.nil_append text.toList).symm
  rw [readBytes, toUTF8_bytes, hread, pure_bind]
  rfl

end SourceDeps.Stylesheet.ByteReader

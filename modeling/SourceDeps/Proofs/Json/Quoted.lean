import SourceDeps.Json.Quoted
import SourceDeps.Proofs.Except

namespace SourceDeps.Json.Quoted

/-- Four hexadecimal digits and the number that they stand for. -/
def HexDigits (a b c d : Char) (n : Nat) : Prop :=
  ∃ x y z t, hexValue? a = some x ∧ hexValue? b = some y ∧ hexValue? c = some z ∧
    hexValue? d = some t ∧ n = ((x * 16 + y) * 16 + z) * 16 + t

/-- What may stand between the quotes of a string: characters, escapes by one letter, and escapes by
the number of a character or of half a surrogate pair. -/
inductive IsBody : List Char → Prop
  | nil : IsBody []
  | plain {c : Char} {cs : List Char} (hquote : c ≠ '\x22') (hescape : c ≠ '\\')
      (hcontrol : 32 ≤ c.toNat) (h : IsBody cs) : IsBody (c :: cs)
  | letter {c d : Char} {cs : List Char} (hd : escape? c = some d) (h : IsBody cs) :
      IsBody ('\\' :: c :: cs)
  | hex {a b c d : Char} {n : Nat} {cs : List Char} (hn : HexDigits a b c d n) (h : IsBody cs) :
      IsBody ('\\' :: 'u' :: a :: b :: c :: d :: cs)

variable {cs ds rest body : List Char} {n : Nat} {why : Stop}

theorem ne_u_of_escape? {c d : Char} (h : escape? c = some d) : c ≠ 'u' := by
  rintro rfl
  cases h

theorem hex4_eq_ok_iff : hex4 cs = .ok (n, rest) ↔
    ∃ a b c d, cs = a :: b :: c :: d :: rest ∧ HexDigits a b c d n := by
  constructor
  · intro h
    unfold hex4 at h
    split at h
    · next a b c d _ =>
      split at h
      · next x y z t ha hb hc hd =>
        cases h
        exact ⟨a, b, c, d, rfl, x, y, z, t, ha, hb, hc, hd, rfl⟩
      · cases h
    · cases h
  · rintro ⟨a, b, c, d, rfl, x, y, z, t, ha, hb, hc, hd, rfl⟩
    simp only [hex4, ha, hb, hc, hd]

theorem hex4_hexDigits {a b c d : Char} (h : HexDigits a b c d n) (cs : List Char) :
    hex4 (a :: b :: c :: d :: cs) = .ok (n, cs) :=
  hex4_eq_ok_iff.mpr ⟨a, b, c, d, rfl, h⟩

theorem skip_quote (cs : List Char) : skip ('\x22' :: cs) = .ok cs := by
  rw [skip, if_pos rfl]

theorem read_quote (cs : List Char) : read ('\x22' :: cs) = .ok ([], cs) := by
  rw [read, if_pos rfl]

section plain

variable {c : Char} (hquote : c ≠ '\x22') (hescape : c ≠ '\\')
include hquote hescape

theorem skip_control (h : c.toNat < 32) (cs : List Char) : skip (c :: cs) = .error .malformed := by
  rw [skip, if_neg hquote, if_neg hescape, if_pos h]

theorem skip_plain (h : 32 ≤ c.toNat) (cs : List Char) : skip (c :: cs) = skip cs := by
  rw [skip, if_neg hquote, if_neg hescape, if_neg (Nat.not_lt_of_le h)]

theorem read_plain (h : 32 ≤ c.toNat) (cs : List Char) :
    read (c :: cs) = (read cs).map fun r => (c :: r.1, r.2) := by
  rw [read, if_neg hquote, if_neg hescape, if_neg (Nat.not_lt_of_le h)]

end plain

theorem skip_escape (cs : List Char) : skip ('\\' :: cs) = skipEscape cs >>= skip := by
  rw [skip, if_neg (by decide), if_pos rfl]
  split
  · next h => rw [h]; rfl
  · next h => rw [h]; rfl

theorem read_escape (cs : List Char) :
    read ('\\' :: cs) = escapeOf cs >>= fun p => (read p.2).map fun r => (p.1 :: r.1, r.2) := by
  rw [read, if_neg (by decide), if_pos rfl]
  split
  · next h => rw [h]; rfl
  · next h => rw [h]; rfl

theorem skipEscape_letter {c d : Char} (h : escape? c = some d) (cs : List Char) :
    skipEscape (c :: cs) = .ok cs := by
  rw [skipEscape, if_neg (ne_u_of_escape? h), h]
  rfl

theorem escapeOf_letter {c d : Char} (h : escape? c = some d) (cs : List Char) :
    escapeOf (c :: cs) = .ok (d, cs) := by
  rw [escapeOf, if_neg (ne_u_of_escape? h), h]

theorem skipEscape_hex {a b c d : Char} (h : HexDigits a b c d n) (cs : List Char) :
    skipEscape ('u' :: a :: b :: c :: d :: cs) = .ok cs := by
  rw [skipEscape, if_pos rfl, hex4_hexDigits h]
  rfl

theorem skip_body (h : IsBody body) (rest : List Char) :
    skip (body ++ '\x22' :: rest) = .ok rest := by
  induction h with
  | nil => exact skip_quote rest
  | plain hquote hescape hcontrol _ ih =>
    rw [List.cons_append, skip_plain hquote hescape hcontrol, ih]
  | letter hd _ ih =>
    rw [List.cons_append, List.cons_append, skip_escape, skipEscape_letter hd]
    exact ih
  | hex hn _ ih =>
    simp only [List.cons_append]
    rw [skip_escape, skipEscape_hex hn]
    exact ih

theorem skipEscape_cases (h : skipEscape cs = .ok rest) :
    (∃ c d, cs = c :: rest ∧ escape? c = some d) ∨
      ∃ a b c d n, cs = 'u' :: a :: b :: c :: d :: rest ∧ HexDigits a b c d n := by
  unfold skipEscape at h
  split at h
  · cases h
  · split at h
    · next hu =>
      obtain ⟨⟨n, more⟩, hhex, rfl⟩ := map_eq_ok.mp h
      obtain ⟨a, b, c, d, rfl, hn⟩ := hex4_eq_ok_iff.mp hhex
      exact .inr ⟨a, b, c, d, n, by rw [hu], hn⟩
    · split at h
      · next hletter =>
        cases h
        obtain ⟨d, hd⟩ := Option.isSome_iff_exists.mp hletter
        exact .inl ⟨_, d, rfl, hd⟩
      · cases h

/-- What is passed over as a string is the body of one, and its second quote. -/
theorem exists_body (h : skip cs = .ok rest) :
    ∃ body, IsBody body ∧ cs = body ++ '\x22' :: rest := by
  -- By the length, because an escape takes several characters at once.
  induction hlen : cs.length using Nat.strongRecOn generalizing cs with
  | ind len ih =>
    cases cs with
    | nil =>
      rw [skip] at h
      cases h
    | cons c cs =>
      rw [List.length_cons] at hlen
      by_cases hquote : c = '\x22'
      · rw [hquote, skip_quote] at h
        cases h
        exact ⟨[], .nil, by rw [hquote]; rfl⟩
      by_cases hescape : c = '\\'
      · rw [hescape, skip_escape, bind_eq_ok] at h
        obtain ⟨more, hmore, h⟩ := h
        have hlt := length_skipEscape hmore
        obtain ⟨body, hbody, rfl⟩ := ih more.length (by omega) h rfl
        rw [hescape]
        obtain ⟨d, e, rfl, hd⟩ | ⟨a, b, d, e, n, rfl, hn⟩ := skipEscape_cases hmore
        · exact ⟨_, .letter hd hbody, rfl⟩
        · exact ⟨_, .hex hn hbody, rfl⟩
      by_cases hcontrol : c.toNat < 32
      · rw [skip_control hquote hescape hcontrol] at h
        cases h
      · have hle := Nat.le_of_not_lt hcontrol
        rw [skip_plain hquote hescape hle] at h
        obtain ⟨body, hbody, rfl⟩ := ih cs.length (by omega) h rfl
        exact ⟨_, .plain hquote hescape hle hbody, rfl⟩

/-- What is read from a string does not depend on what follows it. -/
def ReadsOn (body : List Char) : Prop :=
  ∃ v : Except Stop (List Char), ∀ rest, read (body ++ '\x22' :: rest) = v.map (·, rest)

theorem readsOn_of_error (h : ∀ rest, read (body ++ '\x22' :: rest) = .error why) :
    ReadsOn body :=
  ⟨.error why, h⟩

/-- What `f` takes from the body of a string and its quote does not depend on what follows: it is
malformed, or a shorter body is left. -/
def TakesOff {α : Type} (f : List Char → Except Stop (α × List Char)) (cs : List Char) : Prop :=
  (∀ rest, f (cs ++ '\x22' :: rest) = .error .malformed) ∨
    ∃ a more, IsBody more ∧ more.length ≤ cs.length ∧
      ∀ rest, f (cs ++ '\x22' :: rest) = .ok (a, more ++ '\x22' :: rest)

/-- Only the number of the second half of a surrogate pair goes with the first half. -/
theorem lowSurrogate_other {c : Char} (hescape : c ≠ '\\') (cs : List Char) :
    lowSurrogate (c :: cs) = .error .malformed := by
  unfold lowSurrogate
  split
  · next heq => cases heq
  · next heq => exact absurd (List.cons.inj heq).1 hescape
  · next heq => exact absurd (List.cons.inj heq).1 hescape
  · rfl

theorem lowSurrogate_letter {c d : Char} (h : escape? c = some d) (cs : List Char) :
    lowSurrogate ('\\' :: c :: cs) = .error .malformed := by
  unfold lowSurrogate
  split
  · next heq => cases heq
  · next heq => cases heq
  · next heq => exact absurd (List.cons.inj (List.cons.inj heq).2).1 (ne_u_of_escape? h)
  · rfl

theorem lowSurrogate_takesOff (h : IsBody cs) : TakesOff lowSurrogate cs := by
  cases h with
  | nil => exact .inl fun rest => lowSurrogate_other (by decide) rest
  | plain _ hescape _ _ => exact .inl fun rest => lowSurrogate_other hescape _
  | letter hd _ => exact .inl fun rest => lowSurrogate_letter hd _
  | @hex a b c d n cs hn hcs =>
    have hread := hex4_hexDigits hn
    by_cases hlow : 0xDC00 ≤ n ∧ n ≤ 0xDFFF
    · refine .inr ⟨n, cs, hcs, by simp only [List.length_cons]; omega, fun rest => ?_⟩
      simp only [List.cons_append, lowSurrogate, hread, if_pos hlow]
    · refine .inl fun rest => ?_
      simp only [List.cons_append, lowSurrogate, hread, if_neg hlow]

theorem codePoint_takesOff {a b c d : Char} (hn : HexDigits a b c d n) (h : IsBody cs) :
    TakesOff codePoint (a :: b :: c :: d :: cs) := by
  have hread := hex4_hexDigits hn
  by_cases hlow : 0xDC00 ≤ n ∧ n ≤ 0xDFFF
  · refine .inl fun rest => ?_
    simp only [List.cons_append, codePoint, hread, if_pos hlow]
  -- The first half of a pair looks for the second in what follows.
  by_cases hhigh : 0xD800 ≤ n ∧ n ≤ 0xDBFF
  · rcases lowSurrogate_takesOff h with hbad | ⟨m, more, hmore, hle, hpair⟩
    · refine .inl fun rest => ?_
      simp only [List.cons_append, codePoint, hread, if_neg hlow, if_pos hhigh, hbad]
    · let e := Char.ofNat ((n - 0xD800) * 0x400 + (m - 0xDC00) + 0x10000)
      refine .inr ⟨e, more, hmore, by simp only [List.length_cons]; omega, fun rest => ?_⟩
      simp only [List.cons_append, codePoint, hread, if_neg hlow, if_pos hhigh, hpair]
      rfl
  · refine .inr ⟨Char.ofNat n, cs, h, by simp only [List.length_cons]; omega, fun rest => ?_⟩
    simp only [List.cons_append, codePoint, hread, if_neg hlow, if_neg hhigh]

theorem readsOn_body (h : IsBody body) : ReadsOn body := by
  -- By the length and not by the grammar: half a surrogate pair takes the other half along.
  induction hlen : body.length using Nat.strongRecOn generalizing body with
  | ind len ih =>
    cases h with
    | nil => exact ⟨.ok [], read_quote⟩
    | @plain c cs hquote hescape hcontrol hcs =>
      obtain ⟨v, hv⟩ := ih cs.length (by rw [← hlen, List.length_cons]; omega) hcs rfl
      refine ⟨v.map (c :: ·), fun rest => ?_⟩
      rw [List.cons_append, read_plain hquote hescape hcontrol, hv]
      cases v <;> rfl
    | @letter c d cs hd hcs =>
      obtain ⟨v, hv⟩ :=
        ih cs.length (by rw [← hlen, List.length_cons, List.length_cons]; omega) hcs rfl
      refine ⟨v.map (d :: ·), fun rest => ?_⟩
      rw [List.cons_append, List.cons_append, read_escape, escapeOf_letter hd]
      change (read (cs ++ _)).map _ = _
      rw [hv]
      cases v <;> rfl
    | @hex a b c d n cs hn hcs =>
      have hescape : ∀ rest, read ('\\' :: 'u' :: a :: b :: c :: d :: cs ++ '\x22' :: rest) =
          codePoint (a :: b :: c :: d :: cs ++ '\x22' :: rest) >>= fun p =>
            (read p.2).map fun r => (p.1 :: r.1, r.2) := fun rest => read_escape _
      rcases codePoint_takesOff hn hcs with hbad | ⟨e, more, hmore, hle, htake⟩
      · exact readsOn_of_error fun rest => by rw [hescape, hbad]; rfl
      · have hlt : more.length < len := by
          rw [← hlen]
          simp only [List.length_cons] at hle ⊢
          omega
        obtain ⟨v, hv⟩ := ih more.length hlt hmore rfl
        refine ⟨v.map (e :: ·), fun rest => ?_⟩
        rw [hescape, htake]
        change (read (more ++ _)).map _ = _
        rw [hv]
        cases v <;> rfl

/-- What stands between the quotes of a string. -/
structure Body where
  chars : List Char
  isBody : IsBody chars

/-- What a string is read as. -/
def Body.value (b : Body) : Except Stop String :=
  (read (b.chars ++ ['\x22'])).map fun r => String.ofList r.1

/-- A string with its quotes. -/
def Body.quoted (b : Body) : List Char := '\x22' :: (b.chars ++ ['\x22'])

theorem Body.read_append (b : Body) (rest : List Char) :
    (read (b.chars ++ '\x22' :: rest)).map (fun r => String.ofList r.1) = b.value := by
  obtain ⟨v, hv⟩ := readsOn_body b.isBody
  rw [value, hv, hv]
  cases v <;> rfl

theorem hexValue?_hexDigit {n : Nat} (h : n < 16) : hexValue? (hexDigit n) = some n := by
  have hall : ∀ n < 16, hexValue? (hexDigit n) = some n := by decide
  exact hall n h

/-- A character is written as a letter behind a backslash, by its number, or as itself. -/
theorem escaped_cases (c : Char) :
    (∃ l, escaped c = ['\\', l] ∧ escape? l = some c) ∨
      (∃ x y, escaped c = ['\\', 'u', '0', '0', x, y] ∧ HexDigits '0' '0' x y c.toNat ∧
        c.toNat < 32) ∨
      (escaped c = [c] ∧ c ≠ '\x22' ∧ c ≠ '\\' ∧ 32 ≤ c.toNat) := by
  unfold escaped
  split
  case h_8 hquote hescape _ _ _ _ _ =>
    split
    · next hcontrol =>
      refine .inr (.inl ⟨_, _, rfl, ?_, hcontrol⟩)
      refine ⟨0, 0, c.toNat / 16, c.toNat % 16, rfl, rfl, hexValue?_hexDigit (by omega),
        hexValue?_hexDigit (by omega), by omega⟩
    · next hcontrol =>
      exact .inr (.inr ⟨rfl, hquote, hescape, Nat.le_of_not_lt hcontrol⟩)
  all_goals exact .inl ⟨_, rfl, rfl⟩

theorem isBody_escaped (c : Char) (h : IsBody cs) : IsBody (escaped c ++ cs) := by
  obtain ⟨l, heq, hl⟩ | ⟨x, y, heq, hn, -⟩ | ⟨heq, hquote, hescape, hcontrol⟩ := escaped_cases c
  · rw [heq]
    exact .letter hl h
  · rw [heq]
    exact .hex hn h
  · rw [heq]
    exact .plain hquote hescape hcontrol h

theorem read_escaped (c : Char) (cs : List Char) :
    read (escaped c ++ cs) = (read cs).map fun r => (c :: r.1, r.2) := by
  obtain ⟨l, heq, hl⟩ | ⟨x, y, heq, hn, hlt⟩ | ⟨heq, hquote, hescape, hcontrol⟩ := escaped_cases c
  · rw [heq, List.cons_append, read_escape, List.cons_append, escapeOf_letter hl]
    rfl
  · have hpoint : codePoint ('0' :: '0' :: x :: y :: cs) = .ok (c, cs) := by
      rw [codePoint, hex4_hexDigits hn]
      dsimp only
      rw [if_neg (by omega), if_neg (by omega), Char.ofNat_toNat]
    have hread : read (escaped c ++ cs) = codePoint ('0' :: '0' :: x :: y :: cs) >>= fun p =>
        (read p.2).map fun r => (p.1 :: r.1, r.2) := by
      rw [heq]
      exact read_escape _
    rw [hread, hpoint]
    rfl
  · rw [heq]
    exact read_plain hquote hescape hcontrol cs

theorem isBody_flatMap (cs : List Char) : IsBody (cs.flatMap escaped) := by
  induction cs with
  | nil => exact .nil
  | cons c cs ih =>
    rw [List.flatMap_cons]
    exact isBody_escaped c ih

theorem read_flatMap (cs rest : List Char) :
    read (cs.flatMap escaped ++ '\x22' :: rest) = .ok (cs, rest) := by
  induction cs with
  | nil => exact read_quote rest
  | cons c cs ih =>
    rw [List.flatMap_cons, List.append_assoc, read_escaped, ih]
    rfl

/-- A string as it is written. -/
def Body.ofString (s : String) : Body := ⟨s.toList.flatMap escaped, isBody_flatMap s.toList⟩

theorem Body.quoted_ofString (s : String) : (ofString s).quoted = write s := rfl

/-- A string that is written is read back. -/
theorem Body.value_ofString (s : String) : (ofString s).value = .ok s := by
  rw [value, ofString, read_flatMap]
  exact congrArg Except.ok String.ofList_toList

end SourceDeps.Json.Quoted

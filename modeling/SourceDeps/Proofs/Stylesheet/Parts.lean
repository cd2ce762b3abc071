import SourceDeps.Proofs.Stylesheet.Params

namespace SourceDeps.Stylesheet

/-- What is open is a quote. Every text leads to such a nesting. -/
def Nesting.Proper (n : Nesting) : Prop := ∀ q, n.quote = some q → q = '\x22' ∨ q = '\x27'

namespace Nesting.Proper

variable {n : Nesting}

theorem start (depth : Nat) : Nesting.Proper ⟨none, depth⟩ := by
  rintro q ⟨⟩

theorem after (h : n.Proper) (c : Char) : (n.after c).Proper := by
  -- A character closes what is open, leaves it, or opens itself.
  have hcases : (n.after c).quote = none ∨ (n.after c).quote = n.quote ∨
      (n.after c).quote = some c ∧ (c = '\x22' ∨ c = '\x27') := by
    fun_cases Nesting.after n c <;> simp_all
  intro q hq
  rcases hcases with hnone | hsame | ⟨hopen, hc⟩
  · rw [hnone] at hq
    cases hq
  · exact h q (hsame.symm.trans hq)
  · obtain rfl : c = q := Option.some.inj (hopen.symm.trans hq)
    exact hc

theorem foldl (h : n.Proper) (cs : List Char) : (cs.foldl Nesting.after n).Proper := by
  induction cs generalizing n with
  | nil => exact h
  | cons c cs ih => exact ih (h.after c)

/-- Only quotes and parentheses change the nesting. -/
theorem after_eq (h : n.Proper) {c : Char} (hc : c ∉ ['\x22', '\x27', '(', ')']) :
    n.after c = n := by
  simp only [List.mem_cons, List.not_mem_nil, or_false, not_or] at hc
  obtain ⟨hdouble, hsingle, hopen, hclose⟩ := hc
  cases hquote : n.quote with
  | none => simp [Nesting.after, hquote, hdouble, hsingle, hopen, hclose]
  | some q =>
    have hne : c ≠ q := by
      rintro rfl
      exact (h c hquote).elim hdouble hsingle
    simp [Nesting.after, hquote, hne]

theorem foldl_eq (h : n.Proper) {cs : List Char} (hcs : ∀ c ∈ cs, c ∉ ['\x22', '\x27', '(', ')']) :
    cs.foldl Nesting.after n = n := by
  induction cs with
  | nil => rfl
  | cons c cs ih =>
    rw [List.foldl_cons, h.after_eq (hcs c List.mem_cons_self)]
    exact ih fun d hd => hcs d (List.mem_cons_of_mem c hd)

/-- Where something is open, a text that closes nothing is one part, with its commas. -/
theorem parts_eq (h : n.Proper) (hopen : n ≠ {}) {cs : List Char}
    (hcs : ∀ c ∈ cs, c ∉ ['\x22', '\x27', '(', ')']) : parts n cs = [cs] := by
  induction cs with
  | nil => rfl
  | cons c cs ih =>
    have hc : n.separates c = false := Bool.eq_false_iff.mpr fun hsep =>
      hopen (separates_iff.mp hsep).2
    rw [parts_cons hc, h.after_eq (hcs c List.mem_cons_self),
      ih fun d hd => hcs d (List.mem_cons_of_mem c hd)]
    rfl

end Nesting.Proper

/-- A comma with whatever comes behind it adds its parameters to those of a text, if that text
closes all that it opens, and only then. -/
theorem params_append_comma_iff (cs : List Char) :
    cs.foldl Nesting.after {} = {} ↔
      ∀ ds, params (cs ++ ',' :: ds) = params cs ++ params ds := by
  constructor
  · exact params_append_comma
  · intro h
    by_cases hopen : cs.foldl Nesting.after {} = {}
    · exact hopen
    -- Where something is open, two words behind the comma belong to the last part, which has one
    -- parameter at most.
    have hwords : parts (cs.foldl Nesting.after {}) [',', 'a', ',', 'a'] =
        [[',', 'a', ',', 'a']] :=
      ((Nesting.Proper.start 0).foldl cs).parts_eq hopen (by simp)
    obtain ⟨ps, p, q, qs, hcs, hds, happend⟩ := parts_append {} cs [',', 'a', ',', 'a']
    rw [hwords] at hds
    obtain ⟨rfl, rfl⟩ := List.cons.inj hds
    have hlength := congrArg List.length (h ['a', ',', 'a'])
    have htwo : (params ['a', ',', 'a']).length = 2 := by decide +kernel
    have hlast : ([p ++ [',', 'a', ',', 'a']].filterMap leading?).length ≤ 1 :=
      List.length_filterMap_le _ _
    rw [params_eq, params_eq, happend, hcs, List.length_append, htwo, List.filterMap_append,
      List.filterMap_append, List.length_append, List.length_append] at hlength
    omega

/-- A comma of a text that stands outside of strings and parentheses, given by the characters before
it. -/
def IsOuterComma (text before : List Char) : Prop :=
  before ++ [','] <+: text ∧ before.foldl Nesting.after {} = {}

/-- A stretch of a text between two outer commas, or between one and an end of the text, that has no
outer comma in it. -/
structure IsPart (text left part right : List Char) : Prop where
  split : text = left ++ (part ++ right)
  opens : left = [] ∨ ∃ before, left = before ++ [','] ∧ IsOuterComma text before
  closes : right = [] ∨ IsOuterComma text (left ++ part)
  inside : ∀ front back, part = front ++ ',' :: back → ¬ IsOuterComma text (left ++ front)

/-- Behind an outer comma commas are outer as if the text began there. -/
theorem isOuterComma_append {p : List Char} (hp : p.foldl Nesting.after {} = {})
    (rest before : List Char) :
    IsOuterComma (p ++ ',' :: rest) (p ++ ',' :: before) ↔ IsOuterComma rest before := by
  have hcomma : Nesting.after {} ',' = {} := rfl
  rw [IsOuterComma, IsOuterComma, List.append_assoc, List.cons_append, List.prefix_append_right_inj,
    List.cons_prefix_cons, List.foldl_append, hp, List.foldl_cons, hcomma]
  simp only [true_and]

theorem IsPart.behind {p rest left part right : List Char} (hp : p.foldl Nesting.after {} = {})
    (h : IsPart rest left part right) :
    IsPart (p ++ ',' :: rest) (p ++ ',' :: left) part right where
  split := by rw [h.split, List.append_assoc, List.cons_append]
  opens := by
    right
    rcases h.opens with rfl | ⟨before, rfl, hbefore⟩
    · exact ⟨p, rfl, by simp, hp⟩
    · exact ⟨p ++ ',' :: before, by simp, (isOuterComma_append hp rest before).mpr hbefore⟩
  closes := by
    refine h.closes.imp_right ?_
    intro hcomma
    rw [List.append_assoc, List.cons_append, isOuterComma_append hp]
    exact hcomma
  inside := by
    intro front back hpart hcomma
    rw [List.append_assoc, List.cons_append, isOuterComma_append hp] at hcomma
    exact h.inside front back hpart hcomma

/-- The first part has no outer comma in it, and is the whole text or ends at an outer comma. -/
theorem parts_eq_cons {n : Nesting} {cs p : List Char} {qs : List (List Char)}
    (h : parts n cs = p :: qs) :
    (∀ front back, p = front ++ ',' :: back → front.foldl Nesting.after n ≠ {}) ∧
      (qs = [] ∧ cs = p ∨
        ∃ rest, cs = p ++ ',' :: rest ∧ p.foldl Nesting.after n = {} ∧ parts {} rest = qs) := by
  induction cs generalizing n p with
  | nil =>
    obtain ⟨rfl, rfl⟩ := List.cons.inj h
    exact ⟨fun front back hp => absurd hp (by simp), .inl ⟨rfl, rfl⟩⟩
  | cons c cs ih =>
    cases hc : n.separates c with
    | true =>
      rw [parts_separator hc] at h
      obtain ⟨rfl, rfl⟩ := List.cons.inj h
      obtain ⟨rfl, rfl⟩ := separates_iff.mp hc
      exact ⟨fun front back hp => absurd hp (by simp), .inr ⟨cs, rfl, rfl, rfl⟩⟩
    | false =>
      obtain ⟨p', qs', hparts⟩ := List.exists_cons_of_ne_nil (parts_ne_nil (n.after c) cs)
      rw [parts_cons hc, hparts] at h
      obtain ⟨rfl, rfl⟩ := List.cons.inj h
      obtain ⟨hinside, hends⟩ := ih hparts
      constructor
      · intro front back hp
        cases front with
        | nil =>
          -- A comma that is not outer stands where something is open.
          obtain rfl : c = ',' := List.head_eq_of_cons_eq hp
          intro hn
          exact Bool.eq_false_iff.mp hc (separates_iff.mpr ⟨rfl, hn⟩)
        | cons d front =>
          have hcons : c :: p' = d :: (front ++ ',' :: back) := hp
          obtain ⟨rfl, hp'⟩ := List.cons.inj hcons
          exact hinside front back hp'
      · rcases hends with ⟨hnil, rfl⟩ | ⟨rest, rfl, hclosed, hrest⟩
        · exact .inl ⟨hnil, rfl⟩
        · exact .inr ⟨rest, rfl, hclosed, hrest⟩

theorem flatMap_cons_comma_parts (n : Nesting) (cs : List Char) :
    (parts n cs).flatMap (',' :: ·) = ',' :: cs := by
  induction cs generalizing n with
  | nil => rfl
  | cons c cs ih =>
    cases hc : n.separates c with
    | true =>
      obtain rfl : c = ',' := (separates_iff.mp hc).1
      rw [parts_separator hc, List.flatMap_cons, ih]
      rfl
    | false =>
      obtain ⟨p, ps, hparts⟩ := List.exists_cons_of_ne_nil (parts_ne_nil (n.after c) cs)
      have hcs := ih (n.after c)
      rw [hparts, List.flatMap_cons, List.cons_append] at hcs
      rw [parts_cons hc, hparts, List.modifyHead_cons, List.flatMap_cons, List.cons_append,
        List.cons_append, (List.cons.inj hcs).2]

theorem flatMap_concat_comma_parts (n : Nesting) (cs : List Char) :
    (parts n cs).flatMap (· ++ [',']) = cs ++ [','] := by
  have hshift (ps : List (List Char)) :
      ',' :: ps.flatMap (· ++ [',']) = ps.flatMap (',' :: ·) ++ [','] := by
    induction ps with
    | nil => rfl
    | cons p ps ih =>
      rw [List.flatMap_cons, List.flatMap_cons, List.append_assoc, List.singleton_append, ih,
        List.cons_append, List.cons_append, List.append_assoc]
  have hparts := hshift (parts n cs)
  rw [flatMap_cons_comma_parts] at hparts
  exact (List.cons.inj hparts).2

/-- Each part that is found is one. -/
theorem isPart_of_parts {text part : List Char} {ps qs : List (List Char)}
    (h : parts {} text = ps ++ part :: qs) :
    IsPart text (ps.flatMap (· ++ [','])) part (qs.flatMap (',' :: ·)) := by
  induction ps generalizing text with
  | nil =>
    obtain ⟨hinside, hends⟩ := parts_eq_cons h
    rcases hends with ⟨rfl, rfl⟩ | ⟨rest, rfl, hclosed, rfl⟩
    · refine ⟨by simp, .inl rfl, .inl rfl, ?_⟩
      intro front back hpart hcomma
      exact hinside front back hpart hcomma.2
    · rw [flatMap_cons_comma_parts]
      refine ⟨rfl, .inl rfl, .inr ⟨by simp, hclosed⟩, ?_⟩
      intro front back hpart hcomma
      exact hinside front back hpart hcomma.2
  | cons p ps ih =>
    obtain ⟨-, hends⟩ := parts_eq_cons h
    rcases hends with ⟨hnil, -⟩ | ⟨rest, rfl, hclosed, hrest⟩
    · simp at hnil
    · rw [List.flatMap_cons, List.append_assoc, List.singleton_append]
      exact (ih hrest).behind hclosed

/-- A text without outer commas is one part. -/
theorem parts_of_no_outer {part : List Char}
    (h : ∀ front back, part = front ++ ',' :: back → front.foldl Nesting.after {} ≠ {}) :
    parts {} part = [part] := by
  obtain ⟨p, qs, hparts⟩ := List.exists_cons_of_ne_nil (parts_ne_nil {} part)
  rcases (parts_eq_cons hparts).2 with ⟨rfl, rfl⟩ | ⟨rest, hrest, hclosed, -⟩
  · exact hparts
  · exact absurd hclosed (h p rest hrest)

/-- Each part is found. -/
theorem IsPart.exists_parts {text left part right : List Char} (h : IsPart text left part right) :
    ∃ ps qs, parts {} text = ps ++ part :: qs ∧ left = ps.flatMap (· ++ [',']) ∧
      right = qs.flatMap (',' :: ·) := by
  -- From the beginning of the part on the nesting is as if the text began there.
  obtain ⟨ps, hps, hleft, hclosed⟩ : ∃ ps, parts {} text = ps ++ parts {} (part ++ right) ∧
      left = ps.flatMap (· ++ [',']) ∧ left.foldl Nesting.after {} = {} := by
    rcases h.opens with rfl | ⟨before, rfl, hcomma⟩
    · exact ⟨[], by rw [h.split, List.nil_append, List.nil_append], rfl, rfl⟩
    · refine ⟨parts {} before, ?_, (flatMap_concat_comma_parts {} before).symm, ?_⟩
      · rw [h.split, List.append_assoc, List.singleton_append, parts_append_comma hcomma.2]
      · rw [List.foldl_append, hcomma.2]
        rfl
  have hpart : parts {} part = [part] := by
    apply parts_of_no_outer
    intro front back hsplit hfront
    refine h.inside front back hsplit ⟨?_, ?_⟩
    · rw [h.split, hsplit]
      simp
    · rw [List.foldl_append, hclosed, hfront]
  rcases h.closes with rfl | hcomma
  · exact ⟨ps, [], by rw [hps, List.append_nil, hpart], hleft, rfl⟩
  · obtain ⟨behind, rfl⟩ : ∃ behind, right = ',' :: behind := by
      have hprefix := hcomma.1
      rw [h.split, ← List.append_assoc, List.prefix_append_right_inj] at hprefix
      exact ⟨_, (List.prefix_iff_eq_append.mp hprefix).symm⟩
    have hend : part.foldl Nesting.after {} = {} := by
      have hboth := hcomma.2
      rwa [List.foldl_append, hclosed] at hboth
    refine ⟨ps, parts {} behind, ?_, hleft, (flatMap_cons_comma_parts {} behind).symm⟩
    rw [hps, parts_append_comma hend, hpart, List.singleton_append]

end SourceDeps.Stylesheet

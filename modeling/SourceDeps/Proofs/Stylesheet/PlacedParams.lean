import SourceDeps.Proofs.Stylesheet.Parts
import SourceDeps.Proofs.Stylesheet.Provenance
import SourceDeps.Proofs.Text.Blank

namespace SourceDeps.Stylesheet

open SourceDeps.Text

/-- What stands at the head of a part, behind the white space there: a quote with the text up to the
next such quote, or a word that nothing makes longer. Given are what opens it, what it says, and the
text behind that. -/
inductive IsLeading : (opening name behind : List Char) → Prop where
  | quoted {quote : Char} (hquote : quote = '\x22' ∨ quote = '\x27') {name : List Char}
      (hname : quote ∉ name) (behind : List Char) : IsLeading [quote] name (quote :: behind)
  | word {name behind : List Char} (hne : name ≠ []) (hname : ∀ c ∈ name, isWordChar c = true)
      (hbehind : ∀ c, behind.head? = some c → isWordChar c = false) : IsLeading [] name behind

/-- A parameter with the bytes where its part and where it itself begins. -/
structure PlacedParam where
  part : Nat
  start : Nat
  name : String
  deriving DecidableEq, Repr

namespace PlacedParam

/-- The byte behind a parameter. -/
def stop (r : PlacedParam) : Nat := r.start + r.name.utf8ByteSize

/-- A parameter stands in a text: it leads one of the parts behind the white space there, and that
part is no address. -/
def StandsIn (r : PlacedParam) (text : List Char) : Prop :=
  ∃ left blanks opening name back right,
    IsPart text left (blanks ++ (opening ++ (name ++ back))) right ∧ AllBlank blanks ∧
    IsLeading opening name (back ++ right) ∧
    ¬ ['u', 'r', 'l', '('] <+: opening ++ (name ++ back) ∧
    r = ⟨byteLength left, byteLength (left ++ (blanks ++ opening)), String.ofList name⟩

end PlacedParam

theorem not_isBlank_of_isWordChar {c : Char} (h : isWordChar c = true) : isBlank c = false := by
  simp only [isWordChar, Bool.and_eq_true, Bool.not_eq_true'] at h
  exact h.1.1.1.1.1.1

theorem not_isQuote_of_isWordChar {c : Char} (h : isWordChar c = true) :
    ¬(c = '\x22' ∨ c = '\x27') := by
  rintro (rfl | rfl) <;> exact Bool.noConfusion h

theorem untilQuote_eq_some {quote : Char} {cs name : List Char}
    (h : untilQuote quote cs = some name) :
    ∃ behind, cs = name ++ quote :: behind ∧ quote ∉ name := by
  induction cs generalizing name with
  | nil => cases h
  | cons c cs ih =>
    rw [untilQuote] at h
    split at h
    · rename_i hc
      cases h
      exact ⟨cs, by rw [hc, List.nil_append], List.not_mem_nil⟩
    · rename_i hc
      obtain ⟨name', hname', rfl⟩ := Option.map_eq_some_iff.mp h
      obtain ⟨behind, rfl, hnot⟩ := ih hname'
      exact ⟨behind, rfl, fun hmem => (List.mem_cons.mp hmem).elim (fun he => hc he.symm) hnot⟩

theorem atStart?_quote {quote : Char} (hquote : quote = '\x22' ∨ quote = '\x27') (cs : List Char) :
    atStart? (quote :: cs) = (untilQuote quote cs).map String.ofList := by
  rcases hquote with rfl | rfl <;> rfl

/-- A string without its closing quote and an address lead nothing. -/
theorem exists_isLeading {cs : List Char} {s : String} (h : atStart? cs = some s) :
    ∃ opening name back, cs = opening ++ (name ++ back) ∧ IsLeading opening name back ∧
      ¬ ['u', 'r', 'l', '('] <+: cs ∧ s = String.ofList name := by
  have hstring {quote : Char} (hquote : quote = '\x22' ∨ quote = '\x27') {rest : List Char}
      (hrest : atStart? (quote :: rest) = some s) : ∃ opening name back,
        quote :: rest = opening ++ (name ++ back) ∧ IsLeading opening name back ∧
        ¬ ['u', 'r', 'l', '('] <+: quote :: rest ∧ s = String.ofList name := by
    rw [atStart?_quote hquote] at hrest
    obtain ⟨name, hname, rfl⟩ := Option.map_eq_some_iff.mp hrest
    obtain ⟨behind, rfl, hnot⟩ := untilQuote_eq_some hname
    refine ⟨[quote], name, quote :: behind, rfl, .quoted hquote hnot behind, ?_, rfl⟩
    rw [List.cons_prefix_cons]
    rintro ⟨rfl, -⟩
    exact hquote.elim (by decide) (by decide)
  by_cases hdouble : ['\x22'] <+: cs
  · obtain ⟨rest, rfl⟩ := hdouble
    exact hstring (.inl rfl) h
  by_cases hsingle : ['\x27'] <+: cs
  · obtain ⟨rest, rfl⟩ := hsingle
    exact hstring (.inr rfl) h
  by_cases hurl : ['u', 'r', 'l', '('] <+: cs
  · obtain ⟨rest, rfl⟩ := hurl
    cases h
  · rw [atStart?_eq_word hdouble hsingle hurl] at h
    cases hword : cs.takeWhile isWordChar with
    | nil =>
      rw [hword] at h
      cases h
    | cons c word =>
      rw [hword, List.isEmpty_cons, if_neg Bool.false_ne_true] at h
      refine ⟨[], c :: word, cs.dropWhile isWordChar, ?_, .word (List.cons_ne_nil _ _) ?_ ?_, hurl,
        (Option.some.inj h).symm⟩
      · rw [← hword, List.nil_append, List.takeWhile_append_dropWhile]
      · rw [← hword]
        exact List.all_eq_true.mp List.all_takeWhile
      · intro d hd
        have hnot := List.head?_dropWhile_not isWordChar cs
        rw [hd] at hnot
        exact hnot

namespace IsLeading

variable {opening name back right : List Char}

/-- White space does not go on where something leads a part. -/
theorem head_not_isBlank (h : IsLeading opening name back) (c : Char)
    (hc : (opening ++ (name ++ back)).head? = some c) : isBlank c = false := by
  cases h with
  | quoted hquote hname behind =>
    obtain rfl := Option.some.inj hc
    rcases hquote with rfl | rfl <;> rfl
  | word hne hname hbehind =>
    obtain ⟨d, word, rfl⟩ := List.exists_cons_of_ne_nil hne
    obtain rfl := Option.some.inj hc
    exact not_isBlank_of_isWordChar (hname d List.mem_cons_self)

theorem atStart?_eq (h : IsLeading opening name back)
    (hurl : ¬ ['u', 'r', 'l', '('] <+: opening ++ (name ++ back)) :
    atStart? (opening ++ (name ++ back)) = some (String.ofList name) := by
  cases h with
  | quoted hquote hname behind =>
    rw [List.singleton_append, atStart?_quote hquote, untilQuote_closed hname, Option.map_some]
  | word hne hname hbehind =>
    have hword : (name ++ back).takeWhile isWordChar = name := by
      rw [List.takeWhile_append_of_pos hname]
      cases back with
      | nil => rw [List.takeWhile_nil, List.append_nil]
      | cons c back =>
        rw [List.takeWhile_cons_of_neg (by simp [hbehind c rfl]), List.append_nil]
    obtain ⟨d, word, hd⟩ := List.exists_cons_of_ne_nil hne
    have hquote (q : Char) (hq : q = '\x22' ∨ q = '\x27') : ¬ [q] <+: name ++ back := by
      rw [hd, List.cons_append, List.cons_prefix_cons]
      rintro ⟨rfl, -⟩
      exact not_isQuote_of_isWordChar (hname q (hd ▸ List.mem_cons_self)) hq
    rw [List.nil_append] at hurl ⊢
    rw [atStart?_eq_word (hquote _ (.inl rfl)) (hquote _ (.inr rfl)) hurl, hword, hd]
    rfl

/-- A comma behind a part makes nothing longer. -/
theorem append_iff (hright : right = [] ∨ ∃ behind, right = ',' :: behind) :
    IsLeading opening name (back ++ right) ↔ IsLeading opening name back := by
  rcases hright with rfl | ⟨behind, rfl⟩
  · rw [List.append_nil]
  constructor
  · generalize hall : back ++ ',' :: behind = all
    intro h
    cases h with
    | quoted hquote hname rest =>
      cases back with
      | nil =>
        obtain rfl : ',' = _ := List.head_eq_of_cons_eq hall
        exact absurd hquote (by decide)
      | cons c back =>
        obtain ⟨rfl, -⟩ := List.cons.inj hall
        exact .quoted hquote hname back
    | word hne hname hbehind =>
      refine .word hne hname ?_
      intro c hc
      apply hbehind
      rw [← hall, List.head?_append, hc, Option.some_or]
  · intro h
    cases h with
    | quoted hquote hname rest => exact .quoted hquote hname _
    | word hne hname hbehind =>
      refine .word hne hname ?_
      intro c hc
      rw [List.head?_append] at hc
      cases hback : back.head? with
      | none =>
        rw [hback] at hc
        obtain rfl : ',' = c := Option.some.inj hc
        rfl
      | some d =>
        rw [hback] at hc
        obtain rfl : d = c := Option.some.inj hc
        exact hbehind d hback

end IsLeading

/-- The white space of a part and the quote that opens it, if there is one. -/
def beforeParam (part : List Char) : List Char :=
  part.takeWhile isBlank ++
    ((part.dropWhile isBlank).take 1).filter fun c => c == '\x22' || c == '\x27'

/-- What leads a part is found where the white space of the part ends. -/
theorem IsLeading.found {blanks opening name back : List Char} (hblanks : AllBlank blanks)
    (h : IsLeading opening name back)
    (hurl : ¬ ['u', 'r', 'l', '('] <+: opening ++ (name ++ back)) :
    leading? (blanks ++ (opening ++ (name ++ back))) = some (String.ofList name) ∧
      beforeParam (blanks ++ (opening ++ (name ++ back))) = blanks ++ opening := by
  obtain ⟨d, ds, hhead⟩ : ∃ d ds, opening ++ (name ++ back) = d :: ds := by
    cases h with
    | quoted hquote hname behind => exact ⟨_, _, rfl⟩
    | word hne hname hbehind =>
      obtain ⟨d, word, rfl⟩ := List.exists_cons_of_ne_nil hne
      exact ⟨d, word ++ back, rfl⟩
  have hd : isBlank d = false := h.head_not_isBlank d (by rw [hhead]; rfl)
  have hdrop : (blanks ++ (opening ++ (name ++ back))).dropWhile isBlank =
      opening ++ (name ++ back) := by
    rw [List.dropWhile_append_of_pos hblanks, hhead, List.dropWhile_cons_of_neg (by simp [hd])]
  have htake : (blanks ++ (opening ++ (name ++ back))).takeWhile isBlank = blanks := by
    rw [List.takeWhile_append_of_pos hblanks, hhead, List.takeWhile_cons_of_neg (by simp [hd]),
      List.append_nil]
  have hopening : ((opening ++ (name ++ back)).take 1).filter
      (fun c => c == '\x22' || c == '\x27') = opening := by
    cases h with
    | quoted hquote hname behind => rcases hquote with rfl | rfl <;> rfl
    | word hne hname hbehind =>
      obtain ⟨e, word, rfl⟩ := List.exists_cons_of_ne_nil hne
      have hnot := not_isQuote_of_isWordChar (hname e List.mem_cons_self)
      simpa using hnot
  constructor
  · rw [leading?_eq, hdrop, h.atStart?_eq hurl]
  · rw [beforeParam, htake, hdrop, hopening]

theorem leading?_eq_some_iff {part before : List Char} {s : String} :
    leading? part = some s ∧ beforeParam part = before ↔
      ∃ blanks opening name back, part = blanks ++ (opening ++ (name ++ back)) ∧ AllBlank blanks ∧
        IsLeading opening name back ∧ ¬ ['u', 'r', 'l', '('] <+: opening ++ (name ++ back) ∧
        before = blanks ++ opening ∧ s = String.ofList name := by
  constructor
  · rintro ⟨hs, rfl⟩
    rw [leading?_eq] at hs
    obtain ⟨opening, name, back, hrest, hleading, hurl, rfl⟩ := exists_isLeading hs
    have hblanks : AllBlank (part.takeWhile isBlank) := List.all_eq_true.mp List.all_takeWhile
    have hpart : part = part.takeWhile isBlank ++ (opening ++ (name ++ back)) := by
      rw [← hrest, List.takeWhile_append_dropWhile]
    rw [hrest] at hurl
    have hbefore := (hleading.found hblanks hurl).2
    rw [← hpart] at hbefore
    exact ⟨_, opening, name, back, hpart, hblanks, hleading, hurl, hbefore, rfl⟩
  · rintro ⟨blanks, opening, name, back, rfl, hblanks, hleading, hurl, rfl, rfl⟩
    exact hleading.found hblanks hurl

/-- The parameter of a part that begins at a byte. -/
def placed? (byte : Nat) (part : List Char) : Option PlacedParam :=
  (leading? part).map fun name => ⟨byte, byte + byteLength (beforeParam part), name⟩

/-- The parameters of parts with commas between them, the first of which begins at a byte. -/
def placedParams (byte : Nat) : List (List Char) → List PlacedParam
  | [] => []
  | p :: ps => (placed? byte p).toList ++ placedParams (byte + byteLength p + 1) ps

theorem placed?_eq_some_iff {byte : Nat} {part : List Char} {r : PlacedParam} :
    placed? byte part = some r ↔
      ∃ blanks opening name back, part = blanks ++ (opening ++ (name ++ back)) ∧ AllBlank blanks ∧
        IsLeading opening name back ∧ ¬ ['u', 'r', 'l', '('] <+: opening ++ (name ++ back) ∧
        r = ⟨byte, byte + byteLength (blanks ++ opening), String.ofList name⟩ := by
  rw [placed?, Option.map_eq_some_iff]
  constructor
  · rintro ⟨s, hs, rfl⟩
    obtain ⟨blanks, opening, name, back, hpart, hblanks, hleading, hurl, hbefore, rfl⟩ :=
      leading?_eq_some_iff.mp ⟨hs, rfl⟩
    exact ⟨blanks, opening, name, back, hpart, hblanks, hleading, hurl, by rw [hbefore]⟩
  · rintro ⟨blanks, opening, name, back, hpart, hblanks, hleading, hurl, rfl⟩
    obtain ⟨hs, hbefore⟩ :=
      leading?_eq_some_iff.mpr
        ⟨blanks, opening, name, back, hpart, hblanks, hleading, hurl, rfl, rfl⟩
    exact ⟨_, hs, by rw [hbefore]⟩

theorem map_name_placedParams (byte : Nat) (ps : List (List Char)) :
    (placedParams byte ps).map (·.name) = ps.filterMap leading? := by
  induction ps generalizing byte with
  | nil => rfl
  | cons p ps ih =>
    rw [placedParams, List.map_append, ih, placed?]
    cases hp : leading? p with
    | none => rw [List.filterMap_cons_none hp]; rfl
    | some s => rw [List.filterMap_cons_some hp]; rfl

theorem mem_placedParams {byte : Nat} {ps : List (List Char)} {r : PlacedParam} :
    r ∈ placedParams byte ps ↔ ∃ before p after, ps = before ++ p :: after ∧
      placed? (byte + byteLength (before.flatMap (· ++ [',']))) p = some r := by
  induction ps generalizing byte with
  | nil => simp [placedParams]
  | cons p ps ih =>
    have hnext (before : List (List Char)) : byte + byteLength p + 1 +
        byteLength (before.flatMap (· ++ [','])) =
        byte + byteLength ((p :: before).flatMap (· ++ [','])) := by
      have hcomma : byteLength [','] = 1 := rfl
      rw [List.flatMap_cons, byteLength_append, byteLength_append, hcomma]
      omega
    rw [placedParams, List.mem_append, Option.mem_toList, ih]
    constructor
    · rintro (hp | ⟨before, q, after, rfl, hq⟩)
      · exact ⟨[], p, ps, rfl, hp⟩
      · exact ⟨p :: before, q, after, rfl, by rw [← hnext, hq]⟩
    · rintro ⟨before, q, after, hsplit, hq⟩
      cases before with
      | nil =>
        obtain ⟨rfl, -⟩ := List.cons.inj hsplit
        exact .inl hq
      | cons p' before =>
        obtain ⟨rfl, rfl⟩ := List.cons.inj hsplit
        exact .inr ⟨before, q, after, rfl, by rw [hnext, hq]⟩

/-- A parameter lies in its part. -/
theorem within_of_placed? {byte : Nat} {part : List Char} {r : PlacedParam}
    (h : placed? byte part = some r) :
    r.part = byte ∧ byte ≤ r.start ∧ r.stop ≤ byte + byteLength part := by
  obtain ⟨blanks, opening, name, back, rfl, -, -, -, rfl⟩ := placed?_eq_some_iff.mp h
  refine ⟨rfl, Nat.le_add_right _ _, ?_⟩
  show byte + byteLength (blanks ++ opening) + (String.ofList name).utf8ByteSize ≤ _
  rw [utf8ByteSize_ofList, byteLength_append, byteLength_append,
    byteLength_append, byteLength_append]
  omega

theorem le_part_of_mem {byte : Nat} {ps : List (List Char)} {r : PlacedParam}
    (h : r ∈ placedParams byte ps) : byte ≤ r.part ∧ r.part ≤ r.start := by
  obtain ⟨before, p, after, -, hp⟩ := mem_placedParams.mp h
  obtain ⟨hpart, hstart, -⟩ := within_of_placed? hp
  omega

theorem pairwise_placedParams (byte : Nat) (ps : List (List Char)) :
    (placedParams byte ps).Pairwise fun a b =>
      a.part < b.part ∧ a.start < b.start ∧ a.stop ≤ b.start := by
  induction ps generalizing byte with
  | nil => exact List.Pairwise.nil
  | cons p ps ih =>
    rw [placedParams, List.pairwise_append]
    refine ⟨?_, ih _, ?_⟩
    · cases placed? byte p with
      | none => exact List.Pairwise.nil
      | some r => exact List.pairwise_singleton _ r
    · -- There is at least a comma between a part and those behind it.
      intro a ha b hb
      obtain ⟨hpart, hstart, hstop⟩ := within_of_placed? (Option.mem_toList.mp ha)
      obtain ⟨hle, hbstart⟩ := le_part_of_mem hb
      have hsize : a.start ≤ a.stop := Nat.le_add_right _ _
      omega

/-- The parameters of any text stand in it one after the other, no two of them in one part, and
whatever stands in it in that way is a parameter. -/
theorem params_stand_in_text (text : List Char) :
    ∃ placed : List PlacedParam, placed.map (·.name) = params text ∧
      placed.Pairwise (fun a b => a.part < b.part ∧ a.start < b.start ∧ a.stop ≤ b.start) ∧
      ∀ r, r ∈ placed ↔ r.StandsIn text := by
  refine ⟨placedParams 0 (parts {} text), ?_, pairwise_placedParams 0 _, fun r => ?_⟩
  · rw [map_name_placedParams, params_eq]
  have hcomma (qs : List (List Char)) : qs.flatMap (',' :: ·) = [] ∨
      ∃ behind, qs.flatMap (',' :: ·) = ',' :: behind := by
    cases qs with
    | nil => exact .inl rfl
    | cons q qs => exact .inr ⟨_, rfl⟩
  rw [mem_placedParams]
  constructor
  · rintro ⟨ps, part, qs, hparts, hplaced⟩
    rw [Nat.zero_add] at hplaced
    obtain ⟨blanks, opening, name, back, rfl, hblanks, hleading, hurl, rfl⟩ :=
      placed?_eq_some_iff.mp hplaced
    refine ⟨_, blanks, opening, name, back, _, isPart_of_parts hparts, hblanks,
      (IsLeading.append_iff (hcomma qs)).mpr hleading, hurl, ?_⟩
    rw [byteLength_append _ (blanks ++ opening)]
  · rintro ⟨left, blanks, opening, name, back, right, hpart, hblanks, hleading, hurl, rfl⟩
    obtain ⟨ps, qs, hparts, rfl, rfl⟩ := hpart.exists_parts
    refine ⟨ps, _, qs, hparts, placed?_eq_some_iff.mpr
      ⟨blanks, opening, name, back, rfl, hblanks, (IsLeading.append_iff (hcomma qs)).mp hleading,
        hurl, ?_⟩⟩
    rw [Nat.zero_add, byteLength_append _ (blanks ++ opening)]

end SourceDeps.Stylesheet

import Mathlib.Logic.Relation
import SourceDeps.Proofs.Stylesheet.ByteRead
import SourceDeps.Proofs.Stylesheet.Parts

/-! The scan that finds the end of a prelude jumps over strings and comments; the scan that splits
it goes through them character by character. Without escapes and comments both have the same
parentheses open outside of strings, and so find the same commas. -/

namespace SourceDeps.Stylesheet

open SourceDeps.Text

/-- The bytes of the commas between parts, the first of which begins at a byte. -/
def commasBetween (byte : Nat) : List (List Char) → List Nat
  | [] => []
  | [_] => []
  | p :: q :: ps => (byte + byteLength p) :: commasBetween (byte + byteLength p + 1) (q :: ps)

theorem commasBetween_modifyHead (byte : Nat) (front : List Char) (ps : List (List Char)) :
    commasBetween byte (ps.modifyHead (front ++ ·)) =
      commasBetween (byte + byteLength front) ps := by
  cases ps with
  | nil => rfl
  | cons p ps =>
    cases ps with
    | nil => rfl
    | cons q ps =>
      rw [List.modifyHead_cons, commasBetween, commasBetween, byteLength_append, ← Nat.add_assoc]

theorem commasBetween_parts_separator {n : Nesting} {c : Char} (h : n.separates c = true)
    (byte : Nat) (cs : List Char) :
    commasBetween byte (parts n (c :: cs)) = byte :: commasBetween (byte + 1) (parts n cs) := by
  obtain ⟨q, qs, hparts⟩ := List.exists_cons_of_ne_nil (parts_ne_nil n cs)
  rw [parts_separator h, hparts]
  rfl

theorem commasBetween_parts_cons {n : Nesting} {c : Char} (h : n.separates c = false)
    (byte : Nat) (cs : List Char) :
    commasBetween byte (parts n (c :: cs)) =
      commasBetween (byte + byteLength [c]) (parts (n.after c) cs) := by
  rw [parts_cons h]
  exact commasBetween_modifyHead byte [c] _

/-- What the last part is does not matter. -/
theorem commasBetween_concat (byte : Nat) (ps : List (List Char)) (p q : List Char) :
    commasBetween byte (ps ++ [p]) = commasBetween byte (ps ++ [q]) := by
  induction ps generalizing byte with
  | nil => rfl
  | cons r ps ih =>
    cases ps with
    | nil => rfl
    | cons r' ps => exact congrArg ((byte + byteLength r) :: ·) (ih _)

theorem parts_blank_append {before : List Char} (h : ∀ c ∈ before, isBlank c = true)
    (cs : List Char) : parts {} (before ++ cs) = (parts {} cs).modifyHead (before ++ ·) := by
  induction before with
  | nil => exact (congrFun List.modifyHead_id _).symm
  | cons c before ih =>
    have hc : isBlank c = true := h c List.mem_cons_self
    have hcomma : c ≠ ',' := ne_of_isFiller (isFiller_of_isBlank hc) (by decide)
    rw [List.cons_append, parts_cons (separates_eq_false hcomma {}),
      after_of_notMem_marks (notMem_marks_of_isBlank hc),
      ih fun d hd => h d (List.mem_cons_of_mem c hd), List.modifyHead_modifyHead]
    rfl

/-- Without a backslash in it, a string ends at its first quote, at the end of its line or at that
of the text. -/
theorem quoted_cases {quote : Char} {cs : List Char} (h : '\\' ∉ (quoted quote cs).taken) :
    ∃ body, (∀ c ∈ body, c ≠ quote ∧ c ≠ '\\' ∧ c ≠ '\n') ∧
      ((quoted quote cs).taken = body ++ [quote] ∨
        (quoted quote cs).taken = body ∧
          ((quoted quote cs).rest = [] ∨ ∃ behind, (quoted quote cs).rest = '\n' :: behind)) := by
  fun_induction quoted quote cs with
  | case1 => exact ⟨[], by simp, .inr ⟨rfl, .inl rfl⟩⟩
  | case2 => simp at h
  | case3 c cs ih => simp at h
  | case4 cs hnil hcons => exact ⟨[], by simp, .inl rfl⟩
  | case5 cs hnil hcons hne => exact ⟨[], by simp, .inr ⟨rfl, .inr ⟨cs, rfl⟩⟩⟩
  | case6 c cs hnil hcons hne hnewline ih =>
    rw [Taken.taken_push] at h
    obtain ⟨body, hbody, hends⟩ := ih fun hmem => h (List.mem_cons_of_mem c hmem)
    have hbackslash : c ≠ '\\' := fun hc => h (hc ▸ List.mem_cons_self)
    refine ⟨c :: body, List.forall_mem_cons.mpr ⟨⟨hne, hbackslash, hnewline⟩, hbody⟩, ?_⟩
    rcases hends with htaken | ⟨htaken, hrest⟩
    · left
      rw [Taken.taken_push, htaken, List.cons_append]
    · right
      rw [Taken.taken_push, Taken.rest_push, htaken]
      exact ⟨rfl, hrest⟩

namespace ByteReader

section visits

variable {σ α : Type} {step : σ → Run (σ ⊕ α)} {s s' t : σ}

/-- A loop comes from one state to another. -/
def Visits (step : σ → Run (σ ⊕ α)) : σ → σ → Prop :=
  Relation.ReflTransGen fun s t => step s = pure (.inl t)

theorem visits_next (h : step s = pure (.inl s')) :
    Visits step s t ↔ t = s ∨ Visits step s' t := by
  constructor
  · intro hvisits
    rcases Relation.ReflTransGen.cases_head hvisits with rfl | ⟨u, hu, hbehind⟩
    · exact .inl rfl
    · obtain rfl : s' = u := Sum.inl.inj (pure_inj.mp (h.symm.trans hu))
      exact .inr hbehind
  · rintro (rfl | hbehind)
    · exact .refl
    · exact .head h hbehind

theorem visits_done {a : α} (h : step s = pure (.inr a)) : Visits step s t ↔ t = s := by
  constructor
  · intro hvisits
    rcases Relation.ReflTransGen.cases_head hvisits with rfl | ⟨u, hu, -⟩
    · rfl
    · cases pure_inj.mp (h.symm.trans hu)
  · rintro rfl
    exact .refl

/-- A loop comes to where it stops from each state on its way. -/
theorem Visits.to_stop {a : α} (hs : Visits step s s') (ht : Visits step s t)
    (hstop : step t = pure (.inr a)) : Visits step s' t := by
  have hunique : Relator.RightUnique fun s t : σ => step s = pure (.inl t) :=
    fun u v w hv hw => Sum.inl.inj (pure_inj.mp (hv.symm.trans hw))
  -- One of the two states comes first, and behind the one where the loop stops there is none.
  rcases Relation.ReflTransGen.total_of_right_unique hunique hs ht with hst | hts
  · exact hst
  · rw [(visits_done hstop).mp hts]
    exact .refl

theorem Visits.loop_eq (h : Visits step s t) : loop step s = loop step t := by
  induction h with
  | refl => rfl
  | tail _ hstep ih => rw [ih, loop_next hstep]

/-- A scan comes to a state where it stops. -/
theorem Scans.exists_stop {index : σ → Nat} {b : List UInt8} {step : σ → Run (σ ⊕ Nat)}
    (h : Scans index b step) (s : σ) : ∃ t stop, Visits step s t ∧ step t = pure (.inr stop) := by
  obtain ⟨s' | stop, hstep, hahead⟩ := h s
  · obtain ⟨t, stop, hvisits, hstop⟩ := exists_stop h s'
    exact ⟨t, stop, .head hstep hvisits, hstop⟩
  · exact ⟨s, stop, .refl, hstep⟩
termination_by b.length - index s
decreasing_by
  obtain ⟨hlt, hbound⟩ := hahead
  omega

/-- A loop that moves on over bytes from 128 on comes to the end of the character it is in, and on
its way to nothing but these. -/
theorem visits_more (place : Nat → σ) {text left cs : List Char} {c : Char}
    (hmore : ∀ k y, (utf8 text)[k]? = some y → 128 ≤ y →
      step (place k) = pure (.inl (place (k + 1))))
    (h : text = left ++ c :: cs) :
    Visits step (place (byteLength left + 1)) (place (byteLength (left ++ [c]))) ∧
      ∀ t, Visits step (place (byteLength left + 1)) t →
        (∃ k y, t = place k ∧ (utf8 text)[k]? = some y ∧ 128 ≤ y) ∨
          Visits step (place (byteLength (left ++ [c]))) t := by
  constructor
  · refine leads_over_more (R := fun k l => Visits step (place k) (place l)) (fun _ => .refl)
      .trans ?_ h
    intro k y hk hy
    exact .single (hmore k y hk hy)
  · refine leads_over_more (R := fun k l => ∀ t, Visits step (place k) t →
      (∃ k y, t = place k ∧ (utf8 text)[k]? = some y ∧ 128 ≤ y) ∨ Visits step (place l) t)
      (fun _ _ => .inr) ?_ ?_ h
    · intro k l m hkl hlm t ht
      exact (hkl t ht).elim .inl (hlm t)
    · intro k y hk hy t ht
      rcases (visits_next (hmore k y hk hy)).mp ht with rfl | hbehind
      · exact .inl ⟨k, y, rfl, hk, hy⟩
      · exact .inr hbehind

end visits

/-- The scan of a string goes over the characters that do not end it and are no backslashes. -/
theorem visits_string {quote : Char} (hquote : quote.toNat < 128) {text left body cs : List Char}
    (h : text = left ++ (body ++ cs)) (hbody : ∀ c ∈ body, c ≠ quote ∧ c ≠ '\\' ∧ c ≠ '\n') :
    Visits (stringStep (utf8 text) quote.toUInt8) (byteLength left)
      (byteLength (left ++ body)) := by
  induction body generalizing left with
  | nil =>
    rw [List.append_nil]
    exact .refl
  | cons c body ih =>
    obtain ⟨⟨hc, hbackslash, hnewline⟩, hbody⟩ := List.forall_mem_cons.mp hbody
    have hrest : text = left ++ [c] ++ (body ++ cs) := h.trans (List.append_cons left c _)
    have hstep := stringStep_char hquote h
    rw [if_neg hbackslash, if_neg hc, if_neg hnewline] at hstep
    have hmore := (visits_more id (fun k y => stringStep_more hquote) h).1
    have hcomes := ih hrest hbody
    rw [← List.append_cons] at hcomes
    exact .head hstep (hmore.trans hcomes)

section scans

variable (surface : Surface)

/-- The scan of a prelude comes to a comma outside of strings and parentheses. -/
def PassesComma (text : List Char) (s : Nat × Nat) (k : Nat) : Prop :=
  Visits (preludeStep surface (utf8 text)) s (0, k) ∧ (utf8 text)[k]? = some ','.toUInt8

/-- What the scan of a prelude takes from a state on is plain: there are no backslashes and no
comments in it, and no string that a line break cuts, and the scan ends at a mark, not with the
text. -/
structure PlainScan (text : List Char) (s : Nat × Nat) (taken : List Char) : Prop where
  stops : ∃ t stop, Visits (preludeStep surface (utf8 text)) s t ∧ t.2 < (utf8 text).length ∧
    preludeStep surface (utf8 text) t = pure (.inr stop)
  no_backslash : '\\' ∉ taken
  no_comment : ¬ ['/', '*'] <:+: taken
  strings_uncut : ∀ depth k quote j, Visits (preludeStep surface (utf8 text)) s (depth, k) →
    (utf8 text)[k]? = some quote → (quote = '\x22'.toUInt8 ∨ quote = '\x27'.toUInt8) →
    Visits (stringStep (utf8 text) quote) (k + 1) j → (utf8 text)[j]? ≠ some '\n'.toUInt8

variable {surface} {text : List Char} {s s' : Nat × Nat} {taken : List Char}

theorem PlainScan.later (before : List Char) (h : PlainScan surface text s (before ++ taken))
    (hs : Visits (preludeStep surface (utf8 text)) s s') : PlainScan surface text s' taken where
  stops := by
    obtain ⟨t, stop, ht, hlt, hstop⟩ := h.stops
    exact ⟨t, stop, hs.to_stop ht hstop, hlt, hstop⟩
  no_backslash := fun hmem => h.no_backslash (List.mem_append_right before hmem)
  no_comment := fun hin => h.no_comment (hin.trans (List.suffix_append before taken).isInfix)
  strings_uncut := fun depth k quote j hk => h.strings_uncut depth k quote j (hs.trans hk)

theorem PlainScan.lt_length (h : PlainScan surface text s taken) : s.2 < (utf8 text).length := by
  obtain ⟨t, stop, ht, hlt, -⟩ := h.stops
  by_cases hend : s.2 < (utf8 text).length
  · exact hend
  · -- At the end of the text the scan ends, and comes to no other state.
    have hstep : preludeStep surface (utf8 text) s = pure (.inr (utf8 text).length) :=
      preludeStep_end surface (Nat.le_of_not_lt hend)
    rwa [(visits_done hstep).mp ht] at hlt

variable {left cs : List Char} {c : Char} {depth depth' : Nat}

theorem passesComma_done {stop : Nat} (h : text = left ++ c :: cs) (hc : c ≠ ',')
    (hstep : preludeStep surface (utf8 text) (depth, byteLength left) = pure (.inr stop))
    (k : Nat) : ¬ PassesComma surface text (depth, byteLength left) k := by
  rintro ⟨hvisits, hcomma⟩
  obtain ⟨-, rfl⟩ := Prod.mk.inj ((visits_done hstep).mp hvisits)
  rw [getElem?_utf8 h, Option.some.injEq, lead_eq_iff (by decide)] at hcomma
  exact hc hcomma

/-- A step from a character passes a comma if that is the character. -/
theorem passesComma_next (h : text = left ++ c :: cs)
    (hstep : preludeStep surface (utf8 text) (depth, byteLength left) = pure (.inl s)) (k : Nat) :
    PassesComma surface text (depth, byteLength left) k ↔
      (c = ',' ∧ depth = 0 ∧ k = byteLength left) ∨ PassesComma surface text s k := by
  have hhere : (utf8 text)[byteLength left]? = some ','.toUInt8 ↔ c = ',' := by
    rw [getElem?_utf8 h, Option.some.injEq, lead_eq_iff (by decide)]
  rw [PassesComma, visits_next hstep, or_and_right, Prod.mk.injEq]
  refine or_congr ?_ Iff.rfl
  constructor
  · rintro ⟨⟨hdepth, rfl⟩, hcomma⟩
    exact ⟨hhere.mp hcomma, hdepth.symm, rfl⟩
  · rintro ⟨hc, hdepth, rfl⟩
    exact ⟨⟨hdepth.symm, rfl⟩, hhere.mpr hc⟩

/-- There is no comma among the bytes of a character behind its first. -/
theorem passesComma_more (depth : Nat) (h : text = left ++ c :: cs) (k : Nat) :
    PassesComma surface text (depth, byteLength left + 1) k ↔
      PassesComma surface text (depth, byteLength (left ++ [c])) k := by
  obtain ⟨hcomes, hway⟩ := visits_more (Prod.mk depth)
    (fun k y => preludeStep_more surface depth) h
  refine and_congr_left ?_
  intro hcomma
  constructor
  · intro hvisits
    rcases hway _ hvisits with ⟨k', y, heq, hy, hle⟩ | hbehind
    · obtain ⟨-, rfl⟩ := Prod.mk.inj heq
      have hsame : ','.toUInt8 = y := Option.some.inj (hcomma.symm.trans hy)
      exact absurd hsame.symm (ne_of_le hle (by decide))
    · exact hbehind
  · exact fun hbehind => hcomes.trans hbehind

/-- What a scan takes from a state on closes all that it opens, and the commas between its parts are
those that the scan passes. -/
structure SplitsAlike (surface : Surface) (text : List Char) (s : Nat × Nat) (taken : List Char) :
    Prop where
  closes : taken.foldl Nesting.after ⟨none, s.1⟩ = {}
  commas : ∀ k, PassesComma surface text s k ↔ k ∈ commasBetween s.2 (parts ⟨none, s.1⟩ taken)

/-- Where a scan ends outside of parentheses, it passes no comma. -/
theorem SplitsAlike.done {stop : Nat} (h : text = left ++ c :: cs) (hc : c ≠ ',')
    (hstep : preludeStep surface (utf8 text) (0, byteLength left) = pure (.inr stop))
    (htaken : ∀ d ∈ taken, d ∉ marks) : SplitsAlike surface text (0, byteLength left) taken where
  closes := foldl_after_of_notMem_marks htaken
  commas := by
    intro k
    have hone : parts ⟨none, 0⟩ taken = [taken] := parts_of_notMem_marks htaken
    rw [hone]
    exact iff_of_false (passesComma_done h hc hstep k) List.not_mem_nil

/-- A character after which both scans have the same parentheses open. -/
theorem SplitsAlike.push (h : text = left ++ c :: cs)
    (hstep : preludeStep surface (utf8 text) (depth, byteLength left) =
      pure (.inl (depth', byteLength left + 1)))
    (hafter : Nesting.after ⟨none, depth⟩ c = ⟨none, depth'⟩)
    (hrest : SplitsAlike surface text (depth', byteLength (left ++ [c])) taken) :
    SplitsAlike surface text (depth, byteLength left) (c :: taken) where
  closes := by
    rw [List.foldl_cons, hafter]
    exact hrest.closes
  commas := by
    intro k
    show _ ↔ k ∈ commasBetween (byteLength left) (parts ⟨none, depth⟩ (c :: taken))
    have hcommas := hrest.commas k
    rw [passesComma_next h hstep, passesComma_more depth' h, hcommas]
    show _ ∨ k ∈ commasBetween (byteLength (left ++ [c])) (parts ⟨none, depth'⟩ taken) ↔ _
    -- A comma at which nothing is open is passed by the one scan and separates for the other.
    cases hc : Nesting.separates ⟨none, depth⟩ c with
    | true =>
      obtain ⟨rfl, hdepth⟩ := separates_iff.mp hc
      obtain rfl : depth = 0 := congrArg Nesting.depth hdepth
      obtain rfl : 0 = depth' := congrArg Nesting.depth hafter
      rw [commasBetween_parts_separator hc, List.mem_cons, byteLength_concat_of_lt (by decide)]
      simp only [true_and]
    | false =>
      have hnot : ¬(c = ',' ∧ depth = 0 ∧ k = byteLength left) := by
        rintro ⟨hcomma, rfl, -⟩
        exact Bool.eq_false_iff.mp hc (separates_iff.mpr ⟨hcomma, rfl⟩)
      rw [commasBetween_parts_cons hc, hafter, or_iff_right hnot, byteLength_append]

/-- A string that ends at its quote. -/
theorem SplitsAlike.string {body : List Char} (hquote : c = '\x22' ∨ c = '\x27')
    (h : text = left ++ c :: cs)
    (hstep : preludeStep surface (utf8 text) (depth, byteLength left) =
      pure (.inl (depth, byteLength (left ++ c :: (body ++ [c])))))
    (hbody : c ∉ body)
    (hrest : SplitsAlike surface text (depth, byteLength (left ++ c :: (body ++ [c]))) taken) :
    SplitsAlike surface text (depth, byteLength left) (c :: (body ++ [c] ++ taken)) where
  closes := by
    show List.foldl Nesting.after ⟨none, depth⟩ (c :: (body ++ [c] ++ taken)) = {}
    rw [List.append_assoc, List.singleton_append, List.foldl_cons, after_opening hquote,
      List.foldl_append, foldl_after_quoted hbody, List.foldl_cons, after_closing]
    exact hrest.closes
  commas := by
    intro k
    show _ ↔ k ∈ commasBetween (byteLength left) (parts ⟨none, depth⟩ (c :: (body ++ [c] ++ taken)))
    have hcomma : c ≠ ',' := by rcases hquote with rfl | rfl <;> decide
    have hnot : ¬(c = ',' ∧ depth = 0 ∧ k = byteLength left) := fun hc => hcomma hc.1
    have hfront : byteLength (left ++ c :: (body ++ [c])) =
        byteLength left + byteLength [c] + byteLength (body ++ [c]) := by
      rw [List.append_cons, byteLength_append, byteLength_append left]
    rw [passesComma_next h hstep, or_iff_right hnot, hrest.commas k, hfront,
      commasBetween_parts_cons (separates_eq_false hcomma _), after_opening hquote,
      List.append_assoc, List.singleton_append, parts_within hbody, ← commasBetween_modifyHead]
    simp only [List.append_assoc, List.singleton_append]

/-- A plain scan takes a string up to its quote: the text does not end in it, and neither does the
line. -/
theorem PlainScan.exists_closed {quote : Char} (hquote : quote = '\x22' ∨ quote = '\x27')
    (h : text = left ++ quote :: cs)
    (hstep : preludeStep surface (utf8 text) (depth, byteLength left) =
      pure (.inl (depth, byteLength (left ++ quote :: (quoted quote cs).taken))))
    (hplain : PlainScan surface text (depth, byteLength left)
      (quote :: (quoted quote cs).taken ++ taken)) :
    ∃ body, quote ∉ body ∧ (quoted quote cs).taken = body ++ [quote] := by
  have hascii : quote.toNat < 128 := toNat_lt_of_quote hquote
  have hall : (quoted quote cs).taken ++ (quoted quote cs).rest = cs := all_quoted quote cs
  have hbackslash : '\\' ∉ (quoted quote cs).taken := fun hmem =>
    hplain.no_backslash (List.mem_append_left taken (List.mem_cons_of_mem quote hmem))
  obtain ⟨body, hbody, htaken | ⟨htaken, hrest⟩⟩ := quoted_cases hbackslash
  · exact ⟨body, fun hmem => (hbody quote hmem).1 rfl, htaken⟩
  rcases hrest with hnil | ⟨behind, hnewline⟩
  · -- The scan would end with the text.
    have hlt : byteLength (left ++ quote :: (quoted quote cs).taken) < (utf8 text).length :=
      (hplain.later _ (.single hstep)).lt_length
    have htext : text = left ++ quote :: (quoted quote cs).taken := by
      rw [hnil, List.append_nil] at hall
      rw [hall, h]
    rw [← htext, length_utf8] at hlt
    exact absurd hlt (Nat.lt_irrefl _)
  · -- The string would be cut.
    have hsplit : text = left ++ [quote] ++ (body ++ '\n' :: behind) := by
      rw [h, ← hall, htaken, hnewline, ← List.append_cons]
    have hat : (utf8 text)[byteLength left]? = some quote.toUInt8 := by
      rw [getElem?_utf8 h, (bytes_of_lt hascii).1]
    have hvisits := visits_string hascii hsplit hbody
    have hcut : (utf8 text)[byteLength (left ++ [quote] ++ body)]? = some '\n'.toUInt8 :=
      getElem?_utf8 (hsplit.trans (List.append_assoc _ body _).symm)
    rw [byteLength_concat_of_lt hascii] at hvisits
    refine absurd hcut (hplain.strings_uncut depth _ _ _ .refl hat ?_ hvisits)
    exact hquote.imp (congrArg Char.toUInt8) (congrArg Char.toUInt8)

/-- From each place on, a plain scan passes the commas at which what it takes is split. -/
theorem splitsAlike_prelude {previous : Char} (h : text = left ++ cs)
    (hprevious : EndsAs left previous)
    (hplain : PlainScan surface text (depth, byteLength left)
      (prelude surface depth previous cs).taken) :
    SplitsAlike surface text (depth, byteLength left)
      (prelude surface depth previous cs).taken := by
  revert hplain
  refine prelude_induction (motive := fun depth left t =>
    PlainScan surface text (depth, byteLength left) t.taken →
      SplitsAlike surface text (depth, byteLength left) t.taken)
    ?nil ?mark ?char ?string ?comment depth h hprevious
  case nil =>
    intro depth hplain
    have hlt : byteLength text < (utf8 text).length := hplain.lt_length
    rw [length_utf8] at hlt
    exact absurd hlt (Nat.lt_irrefl _)
  case mark =>
    intro left c cs t stop h hmark htaken _ hstep _
    have hc : c ≠ ',' := by
      rintro rfl
      exact absurd hmark (by decide)
    refine .done h hc hstep ?_
    rcases htaken with hnil | hsemicolon
    · rw [hnil]
      exact List.forall_mem_nil _
    · rw [hsemicolon]
      exact List.forall_mem_singleton.mpr (by decide)
  case char =>
    intro depth depth' left c cs t h hafter hstep ih hplain
    have hvisits := (visits_more (Prod.mk depth')
      (fun k y => preludeStep_more surface depth') h).1
    have hrest : PlainScan surface text (depth', byteLength (left ++ [c])) t.taken :=
      hplain.later [c] (.head hstep hvisits)
    exact .push h hstep hafter (ih hrest)
  case string =>
    intro depth left quote cs t h hquote hstep ih hplain
    obtain ⟨body, hbody, hclosed⟩ := hplain.exists_closed hquote h hstep
    have hrest := ih (hplain.later _ (.single hstep))
    rw [hclosed] at hstep hrest
    rw [hclosed]
    exact .string hquote h hstep hbody hrest
  case comment =>
    intro depth left cs t h hstep _ hplain
    exact absurd (List.prefix_append ['/', '*'] _).isInfix hplain.no_comment

/-- The loop over the characters keeps account of the nesting, also where it cuts out a part. -/
theorem nesting_of_foldlM {body : List Char} {byte : Nat} {a a' : Cutting}
    (h : (charIndices byte cs).foldlM (Cutting.step body) a = pure a') :
    a'.nesting = cs.foldl Nesting.after a.nesting := by
  induction cs generalizing byte a with
  | nil => rw [← pure_inj.mp h, List.foldl_nil]
  | cons c cs ih =>
    rw [charIndices, List.foldlM_cons] at h
    obtain ⟨next, hstep, hrest⟩ := exists_of_bind_eq_pure h
    have hnext : next.nesting = a.nesting.after c := by
      cases hc : a.nesting.separates c with
      | true =>
        obtain ⟨rfl, hnesting⟩ := separates_iff.mp hc
        rw [Cutting.step, if_pos hc] at hstep
        obtain ⟨part, -, hcut⟩ := exists_of_bind_eq_pure hstep
        rw [← pure_inj.mp hcut, hnesting]
        rfl
      | false =>
        rw [Cutting.step, if_neg (Bool.eq_false_iff.mp hc)] at hstep
        rw [← pure_inj.mp hstep]
    rw [ih hrest, hnext, List.foldl_cons]

/-- What is cut off before a range is split: white space at both ends, and semicolons behind it. -/
theorem exists_append_filler (range : List Char) :
    ∃ filler, range = range.takeWhile isBlank ++ (dropSemicolons (trim range) ++ filler) ∧
      ∀ c ∈ filler, isFiller c = true := by
  obtain ⟨semicolons, hbody, hsemicolons⟩ :=
    exists_append_of_dropWhile_reverse (· == ';') (trim range)
  obtain ⟨blanks, htrim, hblanks⟩ :=
    exists_append_of_dropWhile_reverse isBlank (range.dropWhile isBlank)
  refine ⟨semicolons ++ blanks, ?_, ?_⟩
  · calc range = range.takeWhile isBlank ++ range.dropWhile isBlank :=
          (List.takeWhile_append_dropWhile).symm
      _ = range.takeWhile isBlank ++ (trim range ++ blanks) := by rw [trim, trimRight, ← htrim]
      _ = range.takeWhile isBlank ++ (dropSemicolons (trim range) ++ (semicolons ++ blanks)) := by
          rw [← List.append_assoc (dropSemicolons _), dropSemicolons, ← hbody]
  · intro c hc
    rcases List.mem_append.mp hc with hsemicolon | hblank
    · rw [isFiller, hsemicolons c hsemicolon, Bool.or_true]
    · exact isFiller_of_isBlank (hblanks c hblank)

/-- What is cut off before a range is split changes neither the nesting nor the commas. -/
theorem SplitsAlike.body {range body : List Char} {byte : Nat}
    (h : SplitsAlike surface text (0, byte) range) (hbody : dropSemicolons (trim range) = body) :
    body.foldl Nesting.after {} = {} ∧
      ∀ k, PassesComma surface text (0, byte) k ↔
        k ∈ commasBetween (byte + byteLength (range.takeWhile isBlank)) (parts {} body) := by
  obtain ⟨filler, hrange, hfiller⟩ := exists_append_filler range
  rw [hbody] at hrange
  have hblank : ∀ c ∈ range.takeWhile isBlank, isBlank c = true :=
    List.all_eq_true.mp List.all_takeWhile
  constructor
  · have hlead : (range.takeWhile isBlank).foldl Nesting.after {} = {} :=
      foldl_after_of_notMem_marks fun c hc => notMem_marks_of_isBlank (hblank c hc)
    have htail : filler.foldl Nesting.after (body.foldl Nesting.after {}) =
        body.foldl Nesting.after {} := by
      apply ((Nesting.Proper.start 0).foldl body).foldl_eq
      intro c hc hmem
      have hnone : ['\x22', '\x27', '(', ')'].any isFiller = false := by decide
      exact List.any_eq_false.mp hnone c hmem (hfiller c hc)
    have hcloses : range.foldl Nesting.after {} = {} := h.closes
    rwa [hrange, List.foldl_append, hlead, List.foldl_append, htail] at hcloses
  · intro k
    obtain ⟨ps, p, hparts, happend⟩ := parts_append_filler hfiller {} body
    have hcommas : commasBetween byte (parts {} range) =
        commasBetween (byte + byteLength (range.takeWhile isBlank)) (parts {} body) := by
      conv_lhs => rw [hrange, parts_blank_append hblank, commasBetween_modifyHead, happend]
      rw [hparts, commasBetween_concat]
    rw [← hcommas]
    exact h.commas k

/-- Where the scan leaves a rest, it ends at a mark. It is plain then if the text is one line and
there are no backslashes and no comments in what is taken. -/
theorem plainScan_prelude {previous : Char} {range rest : List Char} (h : text = left ++ cs)
    (hprevious : EndsAs left previous)
    (hscan : prelude surface depth previous cs = ⟨range, rest⟩) (hrest : rest ≠ [])
    (hbackslash : '\\' ∉ range) (hcomment : ¬ ['/', '*'] <:+: range)
    (hnewline : '\n' ∉ text) : PlainScan surface text (depth, byteLength left) range where
  stops := by
    obtain ⟨u, stop, hvisits, hstop⟩ :=
      (preludeStep_scans surface (utf8 text)).exists_stop (depth, byteLength left)
    refine ⟨u, stop, hvisits, ?_, hstop⟩
    by_cases hlt : u.2 < (utf8 text).length
    · exact hlt
    · -- Where the scan ends with the text, it leaves no rest.
      have hend : preludeStep surface (utf8 text) u = pure (.inr (utf8 text).length) :=
        preludeStep_end surface (Nat.le_of_not_lt hlt)
      have hloop := loop_preludeStep surface depth h hprevious
      rw [hvisits.loop_eq, loop_done hend, pure_inj, hscan] at hloop
      have hstop : byteLength text = byteLength (left ++ range) :=
        (length_utf8 text).symm.trans hloop
      have hall : range ++ rest = cs := by
        have hcs := all_prelude surface depth previous cs
        rwa [hscan] at hcs
      have hlength : byteLength text = byteLength (left ++ range) + byteLength rest := by
        rw [h, ← hall, ← List.append_assoc, byteLength_append]
      have hpos : byteLength rest ≠ 0 := byteLength_ne_zero hrest
      omega
  no_backslash := hbackslash
  no_comment := hcomment
  strings_uncut := by
    intro _ _ _ _ _ _ _ _ hcut
    exact hnewline ((mem_utf8 (by decide) text).mp (List.mem_of_getElem? hcut))

/-- A range that is scanned in plain fashion is split, once it is trimmed, at the commas that the
scan passes outside of strings and parentheses, and at no others, and nothing is open at its end. -/
theorem preludeEnd_agrees_with_parts (surface : Surface) {left cs range body : List Char}
    (hrange : (prelude surface 0 (left.getLast?.getD ' ') cs).taken = range)
    (hbody : dropSemicolons (trim range) = body)
    (hplain : PlainScan surface (left ++ cs) (0, byteLength left) range) :
    preludeEnd surface (utf8 (left ++ cs)) (byteLength left) = pure (byteLength (left ++ range)) ∧
      (∃ a, (charIndices 0 body).foldlM (Cutting.step body) {} = pure a ∧ a.nesting = {}) ∧
      ∀ k, PassesComma surface (left ++ cs) (0, byteLength left) k ↔
        k ∈ commasBetween (byteLength (left ++ range.takeWhile isBlank)) (parts {} body) := by
  have hend := loop_preludeStep surface 0 (Eq.refl (left ++ cs)) (endsAs_getD left)
  have hsplit : SplitsAlike surface (left ++ cs) (0, byteLength left) range := by
    rw [← hrange] at hplain ⊢
    exact splitsAlike_prelude rfl (endsAs_getD left) hplain
  obtain ⟨hclosed, hcommas⟩ := hsplit.body hbody
  refine ⟨?_, ?_, ?_⟩
  · rw [preludeEnd, hend, hrange]
  · obtain ⟨a, last, hfold, -⟩ := foldlM_step (show body = [] ++ ([] ++ body) from rfl) [] {}
    refine ⟨a, hfold, ?_⟩
    rw [nesting_of_foldlM hfold]
    exact hclosed
  · rw [byteLength_append]
    exact hcommas

/-- A prelude with commas in a string and in nested parentheses, and with a parenthesis too many. -/
def mixedPrelude : List Char := " 'a,b' as c, url(x,(y),z)), \"é)\", d ".toList

/-- The scan passes three commas of this prelude, and it is split there. -/
theorem mixedPrelude_commas :
    preludeEnd .scss (utf8 ("@use".toList ++ (mixedPrelude ++ ['\x7b', '\x7d']))) 4 = pure 41 ∧
      ∀ k, PassesComma .scss ("@use".toList ++ (mixedPrelude ++ ['\x7b', '\x7d'])) (0, 4) k ↔
        k ∈ [15, 30, 37] := by
  have hscan : prelude .scss 0 ("@use".toList.getLast?.getD ' ')
      (mixedPrelude ++ ['\x7b', '\x7d']) = ⟨mixedPrelude, ['\x7b', '\x7d']⟩ := by
    cbv
  have hbody : dropSemicolons (trim mixedPrelude) = mixedPrelude.dropLast.drop 1 := by
    decide +kernel
  have hplain : PlainScan .scss ("@use".toList ++ (mixedPrelude ++ ['\x7b', '\x7d']))
      (0, byteLength "@use".toList) mixedPrelude :=
    plainScan_prelude rfl (endsAs_getD _) hscan (by decide +kernel) (by decide +kernel)
      (by decide +kernel) (by decide +kernel)
  obtain ⟨hend, -, hcommas⟩ :=
    preludeEnd_agrees_with_parts .scss (congrArg Taken.taken hscan) hbody hplain
  have hplaces : commasBetween (byteLength ("@use".toList ++ mixedPrelude.takeWhile isBlank))
      (parts {} (mixedPrelude.dropLast.drop 1)) = [15, 30, 37] := by
    decide +kernel
  rw [hplaces] at hcommas
  exact ⟨hend, hcommas⟩

end scans

end ByteReader

end SourceDeps.Stylesheet

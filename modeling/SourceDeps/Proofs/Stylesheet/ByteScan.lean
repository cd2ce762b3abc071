import Mathlib.Data.List.Basic
import SourceDeps.Proofs.Stylesheet.ByteReader
import SourceDeps.Proofs.Stylesheet.Scan

/-! A scan may come into the midst of a character, but all scans pass over the bytes there alike
(`GoesOver`), as those are from 128 on, and so come to the next character nevertheless. -/

namespace SourceDeps.Stylesheet.ByteReader

open SourceDeps.Text

section places

variable {text left cs : List Char} {c d : Char}

theorem byteLength_concat (left : List Char) (c : Char) :
    byteLength (left ++ [c]) = byteLength left + 1 + (more c).length := by
  have hsize : (more c).length + 1 = c.utf8Size := by
    rw [← String.length_utf8EncodeChar, utf8EncodeChar_eq, List.length_cons]
  rw [byteLength_append, byteLength, byteLength, ← hsize]
  omega

theorem byteLength_concat_of_lt (hc : c.toNat < 128) (left : List Char) :
    byteLength (left ++ [c]) = byteLength left + 1 := by
  rw [byteLength_concat, (bytes_of_lt hc).2, List.length_nil]

theorem utf8_split (h : text = left ++ c :: cs) :
    utf8 text = utf8 left ++ lead c :: (more c ++ utf8 cs) := by
  rw [h, utf8_append, utf8_cons]

theorem lt_length_utf8 (h : text = left ++ c :: cs) : byteLength left < (utf8 text).length := by
  rw [utf8_split h, List.length_append, length_utf8, List.length_cons]
  omega

theorem getElem?_utf8 (h : text = left ++ c :: cs) :
    (utf8 text)[byteLength left]? = some (lead c) := by
  rw [utf8_split h, ← length_utf8, List.getElem?_append_right (Nat.le_refl _), Nat.sub_self]
  rfl

theorem length_utf8_end (h : text = left ++ []) : (utf8 text).length = byteLength left := by
  rw [length_utf8, h, List.append_nil]

/-- Behind an ASCII character the next byte begins the next character. -/
theorem getElem?_utf8_next (h : text = left ++ c :: cs) (hc : c.toNat < 128)
    (hd : d.toNat < 128) :
    (utf8 text)[byteLength left + 1]? = some d.toUInt8 ↔ cs.head? = some d := by
  have hnext : (utf8 text)[byteLength left + 1]? = (utf8 cs)[0]? := by
    rw [utf8_split h, (bytes_of_lt hc).2, ← length_utf8, List.getElem?_append_right (by omega),
      Nat.add_sub_cancel_left]
    rfl
  rw [hnext]
  cases cs with
  | nil => simp [utf8]
  | cons e cs => rw [utf8_cons, List.getElem?_cons_zero, Option.some.injEq, lead_eq_iff hd,
      List.head?_cons, Option.some.injEq]

/-- A byte and the next one are a slash and another ASCII character if these stand in the text. -/
theorem slash_then_iff (h : text = left ++ c :: cs) (d : Char) (hd : d.toNat < 128) :
    (lead c = '/'.toUInt8 ∧ (utf8 text)[byteLength left + 1]? = some d.toUInt8) ↔
      (c = '/' ∧ cs.head? = some d) := by
  have hslash : '/'.toNat < 128 := by decide
  rw [lead_eq_iff hslash]
  refine and_congr_right ?_
  rintro rfl
  exact getElem?_utf8_next h hslash hd

theorem cutBytes_utf8 {right : List Char} (h : text = left ++ (cs ++ right)) :
    cutBytes (utf8 text) (byteLength left) (byteLength (left ++ cs)) = pure (utf8 cs) := by
  have hb : utf8 text = utf8 (left ++ cs) ++ utf8 right := by
    rw [h, ← List.append_assoc, utf8_append]
  have hle : byteLength left ≤ byteLength (left ++ cs) := by
    rw [byteLength_append]
    exact Nat.le_add_right _ _
  have hlen : byteLength (left ++ cs) ≤ (utf8 text).length := by
    rw [hb, List.length_append, length_utf8]
    exact Nat.le_add_right _ _
  rw [cutBytes, if_pos ⟨hle, hlen⟩, hb, List.take_left' (length_utf8 _), utf8_append,
    List.drop_left' (length_utf8 _)]

/-- What leads over each byte from 128 on leads over several of them. -/
theorem leads_over {R : Nat → Nat → Prop} (hrefl : ∀ k, R k k)
    (htrans : ∀ {k l m}, R k l → R l m → R k m) {b xs ys zs : List UInt8}
    (hover : ∀ k y, b[k]? = some y → 128 ≤ y → R k (k + 1)) (hb : b = xs ++ (ys ++ zs))
    (hys : ∀ y ∈ ys, 128 ≤ y) : R xs.length (xs.length + ys.length) := by
  induction ys generalizing xs with
  | nil => exact hrefl _
  | cons y ys ih =>
    obtain ⟨hy, hys⟩ := List.forall_mem_cons.mp hys
    have hat : b[xs.length]? = some y := by
      rw [hb, List.getElem?_append_right (Nat.le_refl _), Nat.sub_self]
      rfl
    have hrest : b = xs ++ [y] ++ (ys ++ zs) := by
      rw [hb, List.append_assoc]
      rfl
    have hskip := ih hrest hys
    rw [List.length_append, List.length_singleton, Nat.add_assoc, Nat.add_comm 1] at hskip
    exact htrans (hover _ y hat hy) hskip

/-- It leads from behind the first byte of a character to the next character. -/
theorem leads_over_more {R : Nat → Nat → Prop} (hrefl : ∀ k, R k k)
    (htrans : ∀ {k l m}, R k l → R l m → R k m)
    (hover : ∀ k y, (utf8 text)[k]? = some y → 128 ≤ y → R k (k + 1))
    (h : text = left ++ c :: cs) : R (byteLength left + 1) (byteLength (left ++ [c])) := by
  have hb : utf8 text = (utf8 left ++ [lead c]) ++ (more c ++ utf8 cs) := by
    rw [utf8_split h, List.append_assoc]
    rfl
  have hskip := leads_over hrefl htrans hover hb fun y hy => le_of_mem_more hy
  rwa [List.length_append, List.length_singleton, length_utf8, ← byteLength_concat] at hskip

variable {σ α : Type} {step : σ → Run (σ ⊕ α)}

/-- A loop comes to the same result from a byte from 128 on as from the byte behind it. -/
def GoesOver (step : σ → Run (σ ⊕ α)) (place : Nat → σ) (b : List UInt8) : Prop :=
  ∀ k y, b[k]? = some y → 128 ≤ y → loop step (place k) = loop step (place (k + 1))

/-- A loop that goes over bytes from 128 on comes to the end of the character it is in. -/
theorem loop_more {place : Nat → σ} (hover : GoesOver step place (utf8 text))
    (h : text = left ++ c :: cs) :
    loop step (place (byteLength left + 1)) = loop step (place (byteLength (left ++ [c]))) :=
  leads_over_more (R := fun k l => loop step (place k) = loop step (place l)) (fun _ => rfl)
    Eq.trans hover h

/-- A scan that goes on behind a character, and ends where `t` says from there on, takes the
character and what `t` takes. -/
theorem loop_push {step : σ → Run (σ ⊕ Nat)} {place : Nat → σ} {s : σ} {t : Taken}
    (hnext : loop step s = loop step (place (byteLength left + 1)))
    (hover : GoesOver step place (utf8 text)) (h : text = left ++ c :: cs)
    (hrest : loop step (place (byteLength (left ++ [c]))) =
      pure (byteLength (left ++ [c] ++ t.taken))) :
    loop step s = pure (byteLength (left ++ (t.push c).taken)) := by
  rw [hnext, loop_more hover h, hrest, Taken.taken_push, ← List.append_cons]

end places

section strings

variable {quote : Char}

theorem toNat_lt_of_quote (h : quote = '\x22' ∨ quote = '\x27') : quote.toNat < 128 := by
  rcases h with rfl | rfl <;> decide

theorem stringStep_end {b : List UInt8} {k : Nat} (hk : b.length ≤ k) (quote : UInt8) :
    stringStep b quote k = pure (.inr b.length) :=
  if_neg (Nat.not_lt_of_le hk)

theorem stringStep_more (hquote : quote.toNat < 128) {b : List UInt8} {k : Nat} {y : UInt8}
    (hk : b[k]? = some y) (hy : 128 ≤ y) :
    stringStep b quote.toUInt8 k = pure (.inl (k + 1)) := by
  have hlt : k < b.length := (List.getElem?_eq_some_iff.mp hk).1
  have hbackslash : y ≠ '\\'.toUInt8 := ne_of_le hy (by decide)
  have hnewline : y ≠ '\n'.toUInt8 := ne_of_le hy (by decide)
  rw [stringStep, if_pos hlt, byteAt_eq hk, pure_bind, if_neg hbackslash,
    if_neg (ne_of_le hy hquote), if_neg hnewline]

theorem stringStep_goesOver (hquote : quote.toNat < 128) (b : List UInt8) :
    GoesOver (stringStep b quote.toUInt8) id b :=
  fun _ _ hk hy => loop_next (stringStep_more hquote hk hy)

variable {text left cs : List Char} {c : Char}

theorem stringStep_char (hquote : quote.toNat < 128) (h : text = left ++ c :: cs) :
    stringStep (utf8 text) quote.toUInt8 (byteLength left) =
      pure (if c = '\\' then .inl (byteLength left + 2)
        else if c = quote then .inr (byteLength left + 1)
        else if c = '\n' then .inr (byteLength left)
        else .inl (byteLength left + 1)) := by
  have hbackslash : '\\'.toNat < 128 := by decide
  have hnewline : '\n'.toNat < 128 := by decide
  rw [stringStep, if_pos (lt_length_utf8 h), byteAt_eq (getElem?_utf8 h), pure_bind]
  simp only [lead_eq_iff hquote, lead_eq_iff hbackslash, lead_eq_iff hnewline]

theorem ne_of_no_tail {d : Char} (hnil : c = d → cs = [] → False)
    (hcons : ∀ e es, c = d → cs = e :: es → False) : c ≠ d := by
  intro hc
  cases cs with
  | nil => exact hnil hc rfl
  | cons e es => exact hcons e es hc rfl

/-- The scan of a string goes two bytes on at a backslash, be it into a character of several bytes
or past the end. Either way it comes to where the characters end that are taken. -/
theorem loop_stringStep (hquote : quote.toNat < 128) (h : text = left ++ cs) :
    loop (stringStep (utf8 text) quote.toUInt8) (byteLength left) =
      pure (byteLength (left ++ (quoted quote cs).taken)) := by
  have hbackslash : '\\'.toNat < 128 := by decide
  have hover := stringStep_goesOver hquote (utf8 text)
  fun_induction quoted quote cs generalizing left with
  | case1 =>
    rw [loop_done (stringStep_end (Nat.le_of_eq (length_utf8_end h)) _), length_utf8_end h,
      List.append_nil]
  | case2 =>
    -- A backslash at the end takes the scan past the end, and the next step brings it back there.
    have hend : (utf8 text).length = byteLength left + 1 := by
      rw [length_utf8, h, byteLength_concat_of_lt hbackslash]
    have hstep := stringStep_char hquote h
    rw [if_pos rfl] at hstep
    rw [loop_next hstep, loop_done (stringStep_end (by omega) _), length_utf8, h]
  | case3 c cs ih =>
    -- The scan is then behind the first byte of the character that follows, and goes over the rest.
    have hstep := stringStep_char hquote h
    rw [if_pos rfl] at hstep
    have h' : text = left ++ ['\\'] ++ c :: cs := h.trans (List.append_cons left '\\' (c :: cs))
    have htwo : byteLength left + 2 = byteLength (left ++ ['\\']) + 1 := by
      rw [byteLength_concat_of_lt hbackslash]
    rw [htwo] at hstep
    rw [loop_push (loop_next hstep) hover h' (ih (h'.trans (List.append_cons _ c cs))),
      ← List.append_cons]
    rfl
  | case4 cs hnil hcons =>
    have hstep := stringStep_char hquote h
    rw [if_neg (ne_of_no_tail hnil hcons), if_pos rfl] at hstep
    rw [loop_done hstep, byteLength_concat_of_lt hquote]
  | case5 cs hnil hcons hne =>
    have hstep := stringStep_char hquote h
    rw [if_neg (ne_of_no_tail hnil hcons), if_neg hne, if_pos rfl] at hstep
    rw [loop_done hstep, List.append_nil]
  | case6 c cs hnil hcons hne hnewline ih =>
    have hstep := stringStep_char hquote h
    rw [if_neg (ne_of_no_tail hnil hcons), if_neg hne, if_neg hnewline] at hstep
    exact loop_push (loop_next hstep) hover h (ih (h.trans (List.append_cons left c cs)))

theorem stringEnd_eq (hquote : quote.toNat < 128) (h : text = left ++ quote :: cs) :
    stringEnd (utf8 text) quote.toUInt8 (byteLength left) =
      pure (byteLength (left ++ quote :: (quoted quote cs).taken)) := by
  rw [stringEnd, ← byteLength_concat_of_lt hquote,
    loop_stringStep hquote (h.trans (List.append_cons left quote cs)), ← List.append_cons]

end strings

section comments

theorem commentStep_end {b : List UInt8} {k : Nat} (hk : b.length ≤ k + 1) :
    commentStep b k = pure (.inr b.length) :=
  if_neg (Nat.not_lt_of_le hk)

theorem commentStep_done {b : List UInt8} {k : Nat} (hstar : b[k]? = some '*'.toUInt8)
    (hslash : b[k + 1]? = some '/'.toUInt8) : commentStep b k = pure (.inr (k + 2)) := by
  have hk : k + 1 < b.length := (List.getElem?_eq_some_iff.mp hslash).1
  rw [commentStep, if_pos hk, byteAt_eq hstar, pure_bind, if_pos rfl, byteAt_eq hslash, pure_bind,
    if_pos rfl]

/-- Where the closing mark does not stand, the scan of a comment goes on by one byte, also when that
is the last one. -/
theorem loop_commentStep_next {b : List UInt8} {k : Nat} {y : UInt8} (hy : b[k]? = some y)
    (h : y = '*'.toUInt8 → b[k + 1]? ≠ some '/'.toUInt8) :
    loop (commentStep b) k = loop (commentStep b) (k + 1) := by
  have hlt : k < b.length := (List.getElem?_eq_some_iff.mp hy).1
  by_cases hk : k + 1 < b.length
  · refine loop_next ?_
    rw [commentStep, if_pos hk, byteAt_eq hy, pure_bind]
    by_cases hstar : y = '*'.toUInt8
    · have hslash : b[k + 1] ≠ '/'.toUInt8 := fun hslash =>
        h hstar (hslash ▸ List.getElem?_eq_getElem hk)
      rw [if_pos hstar, byteAt_eq (List.getElem?_eq_getElem hk), pure_bind, if_neg hslash]
    · rw [if_neg hstar]
  · rw [loop_done (commentStep_end (Nat.le_of_not_lt hk)), loop_done (commentStep_end (by omega))]

variable {text left cs : List Char}

theorem loop_commentStep (h : text = left ++ cs) :
    loop (commentStep (utf8 text)) (byteLength left) =
      pure (byteLength (left ++ (blockComment cs).taken)) := by
  have hstar : '*'.toNat < 128 := by decide
  have hslash : '/'.toNat < 128 := by decide
  have hover : GoesOver (commentStep (utf8 text)) id (utf8 text) := fun k y hk hy =>
    loop_commentStep_next hk fun hy' => absurd hy' (ne_of_le hy hstar)
  fun_induction blockComment cs generalizing left with
  | case1 cs =>
    have hat : (utf8 text)[byteLength left]? = some '*'.toUInt8 := getElem?_utf8 h
    have hnext : (utf8 text)[byteLength left + 1]? = some '/'.toUInt8 :=
      (getElem?_utf8_next h hstar hslash).mpr rfl
    rw [loop_done (commentStep_done hat hnext), List.append_cons, byteLength_concat_of_lt hslash,
      byteLength_concat_of_lt hstar]
  | case2 c cs hmark ih =>
    have hopen : lead c = '*'.toUInt8 → (utf8 text)[byteLength left + 1]? ≠ some '/'.toUInt8 := by
      intro hc hnext
      obtain rfl : c = '*' := (lead_eq_iff hstar).mp hc
      obtain ⟨ds, hds⟩ := List.head?_eq_some_iff.mp ((getElem?_utf8_next h hstar hslash).mp hnext)
      exact hmark ds rfl hds
    exact loop_push (loop_commentStep_next (getElem?_utf8 h) hopen) hover h
      (ih (h.trans (List.append_cons left c cs)))
  | case3 =>
    have hend : (utf8 text).length = byteLength left := length_utf8_end h
    rw [loop_done (commentStep_end (by omega)), hend, List.append_nil]

theorem commentEnd_eq (h : text = left ++ '/' :: '*' :: cs) :
    commentEnd (utf8 text) (byteLength left) =
      pure (byteLength (left ++ '/' :: '*' :: (blockComment cs).taken)) := by
  have hstar : '*'.toNat < 128 := by decide
  have hslash : '/'.toNat < 128 := by decide
  have h' : text = left ++ ['/'] ++ ['*'] ++ cs := by
    rw [h, ← List.append_cons, ← List.append_cons]
  have hloop := loop_commentStep h'
  rw [byteLength_concat_of_lt hstar, byteLength_concat_of_lt hslash] at hloop
  rw [commentEnd, hloop, ← List.append_cons, ← List.append_cons]

end comments

section names

theorem isNameByte_of_le {y : UInt8} (h : 128 ≤ y) : isNameByte y = false := by
  have hne (d : Char) (hd : d.toNat < 128) : y ≠ d.toUInt8 := ne_of_le h hd
  have hnle (d : Char) (hd : d.toNat < 128) : ¬ y ≤ d.toUInt8 := by
    rw [UInt8.le_iff_toNat_le] at h ⊢
    rw [toNat_toUInt8 hd]
    exact Nat.not_le_of_lt (Nat.lt_of_lt_of_le hd h)
  simp [isNameByte, hne '-', hne '_', hnle '9', hnle 'Z', hnle 'z']

theorem toNat_lt_of_isNameChar {c : Char} (h : isNameChar c = true) : c.toNat < 128 :=
  Nat.lt_of_le_of_lt (toNat_of_isNameChar h).2 (by decide)

/-- Whether a character belongs to a name shows at its first byte. -/
theorem isNameByte_lead (c : Char) : isNameByte (lead c) = isNameChar c := by
  have hascii : ∀ n < 128, isNameByte (Char.ofNat n).toUInt8 = isNameChar (Char.ofNat n) := by
    decide
  by_cases hc : c.toNat < 128
  · have hsame := hascii c.toNat hc
    rwa [Char.ofNat_toNat, ← (bytes_of_lt hc).1] at hsame
  · have hname : isNameChar c ≠ true := fun hname => hc (toNat_lt_of_isNameChar hname)
    rw [isNameByte_of_le (le_lead (Nat.le_of_not_lt hc)), Bool.eq_false_iff.mpr hname]

variable {text left cs : List Char} {c : Char}

theorem nameStep_char (h : text = left ++ c :: cs) :
    nameStep (utf8 text) (byteLength left) =
      pure (if isNameChar c then .inl (byteLength left + 1) else .inr (byteLength left)) := by
  rw [nameStep, if_pos (lt_length_utf8 h), byteAt_eq (getElem?_utf8 h), pure_bind, isNameByte_lead]

theorem nameEnd_eq (h : text = left ++ cs) :
    nameEnd (utf8 text) (byteLength left) =
      pure (byteLength (left ++ (ruleName cs).taken)) := by
  rw [nameEnd]
  fun_induction ruleName cs generalizing left with
  | case1 c cs hc ih =>
    have hstep := nameStep_char h
    rw [if_pos hc, ← byteLength_concat_of_lt (toNat_lt_of_isNameChar hc)] at hstep
    rw [loop_next hstep, ih (h.trans (List.append_cons left c cs)), Taken.taken_push,
      ← List.append_cons]
  | case2 c cs hc =>
    have hstep := nameStep_char h
    rw [if_neg hc] at hstep
    rw [loop_done hstep, List.append_nil]
  | case3 =>
    have hend : ¬ byteLength left < (utf8 text).length := by
      rw [length_utf8_end h]
      exact Nat.lt_irrefl _
    rw [List.append_nil]
    exact loop_done (if_neg hend)

end names

section lines

theorem findIdx?_utf8 (cs : List Char) :
    ((utf8 cs).findIdx? (· = '\n'.toUInt8)).getD (byteLength cs) =
      byteLength (restOfLine cs).taken := by
  have hnewline : '\n'.toNat < 128 := by decide
  fun_induction restOfLine cs with
  | case1 cs => rfl
  | case2 c cs hc ih =>
    have hfirst : (lead c :: more c).findIdx? (· = '\n'.toUInt8) = none := by
      rw [List.findIdx?_eq_none_iff]
      intro y hy
      rcases List.mem_cons.mp hy with rfl | hy
      · have hne : lead c ≠ '\n'.toUInt8 := fun h => hc ((lead_eq_iff hnewline).mp h)
        exact decide_eq_false hne
      · exact decide_eq_false (ne_of_le (le_of_mem_more hy) hnewline)
    have hlen : (lead c :: more c).length = c.utf8Size := by
      rw [← utf8EncodeChar_eq, String.length_utf8EncodeChar]
    rw [utf8_cons, ← List.cons_append, List.findIdx?_append, hfirst, Option.none_or, hlen,
      byteLength, Nat.add_comm c.utf8Size, Option.getD_map (· + c.utf8Size), ih, Taken.taken_push,
      byteLength, Nat.add_comm]
  | case3 => rfl

variable {text left cs : List Char}

theorem lineEnd_eq (h : text = left ++ cs) :
    lineEnd (utf8 text) (byteLength left) = pure (byteLength (left ++ (restOfLine cs).taken)) := by
  have hnil : text = left ++ (cs ++ []) := by rw [h, List.append_nil]
  have hcut := cutBytes_utf8 hnil
  rw [← h, ← length_utf8 text] at hcut
  have hlen : (utf8 text).length = byteLength left + byteLength cs := by
    rw [length_utf8, h, byteLength_append]
  rw [lineEnd, hcut, pure_bind, hlen, Option.getD_map (byteLength left + ·), findIdx?_utf8,
    byteLength_append]

end lines

section preludes

variable (surface : Surface)

/-- Of the character before a place only counts whether it is a colon. There is none before the
beginning of a text. -/
def EndsAs (left : List Char) (previous : Char) : Prop :=
  left.getLast? = some ':' ↔ previous = ':'

theorem endsAs_of_getLast? {left : List Char} {previous : Char}
    (h : left.getLast? = some previous) : EndsAs left previous := by
  rw [EndsAs, h, Option.some.injEq]

theorem endsAs_concat (left : List Char) (c : Char) : EndsAs (left ++ [c]) c :=
  endsAs_of_getLast? List.getLast?_concat

theorem endsAs_getD (left : List Char) : EndsAs left (left.getLast?.getD ' ') := by
  cases h : left.getLast? with
  | none => simp [EndsAs, h]
  | some c => exact endsAs_of_getLast? h

theorem followsColon_eq {text left cs : List Char} {previous : Char} (h : text = left ++ cs)
    (hprevious : EndsAs left previous) :
    followsColon (utf8 text) (byteLength left) = pure (decide (previous = ':')) := by
  have hcolon : ':'.toNat < 128 := by decide
  rcases List.eq_nil_or_concat left with rfl | ⟨front, c, rfl⟩
  · have hne : previous ≠ ':' := fun he => by simpa using hprevious.mpr he
    rw [followsColon, decide_eq_false hne]
    rfl
  rw [List.concat_eq_append] at h hprevious ⊢
  have hpos : 0 < (utf8 (front ++ [c])).length := by
    rw [length_utf8, byteLength_concat]
    omega
  have hbefore : (utf8 text)[byteLength (front ++ [c]) - 1]? = (utf8 (front ++ [c])).getLast? := by
    rw [h, utf8_append, ← length_utf8, List.getElem?_append_left (by omega),
      List.getLast?_eq_getElem?]
  have hlast : (utf8 (front ++ [c])).getLast? =
      some ((utf8 (front ++ [c])).getLast (List.ne_nil_of_length_pos hpos)) :=
    List.getLast?_eq_some_getLast _
  have hiff := (getLast?_utf8 hcolon (front ++ [c])).trans hprevious
  rw [hlast, Option.some.injEq] at hiff
  rw [followsColon, if_pos (by rwa [← length_utf8]), byteAt_eq (hbefore.trans hlast), pure_bind]
  simp only [hiff]

theorem preludeStep_end {depth : Nat} {b : List UInt8} {k : Nat} (hk : b.length ≤ k) :
    preludeStep surface b (depth, k) = pure (.inr b.length) := by
  rw [preludeStep, if_neg (Nat.not_lt_of_le hk)]

theorem preludeStep_more (depth : Nat) {b : List UInt8} {k : Nat} {y : UInt8}
    (hk : b[k]? = some y) (hy : 128 ≤ y) :
    preludeStep surface b (depth, k) = pure (.inl (depth, k + 1)) := by
  have hlt : k < b.length := (List.getElem?_eq_some_iff.mp hk).1
  have hquote : ¬(y = '\x22'.toUInt8 ∨ y = '\x27'.toUInt8) := fun h =>
    h.elim (ne_of_le hy (by decide)) (ne_of_le hy (by decide))
  have hslash : y ≠ '/'.toUInt8 := ne_of_le hy (by decide)
  have hopen : y ≠ '('.toUInt8 := ne_of_le hy (by decide)
  have hclose : y ≠ ')'.toUInt8 := ne_of_le hy (by decide)
  have hsemicolon : y ≠ ';'.toUInt8 := ne_of_le hy (by decide)
  have hbrace : ¬(y = '\x7b'.toUInt8 ∨ y = '\x7d'.toUInt8) := fun h =>
    h.elim (ne_of_le hy (by decide)) (ne_of_le hy (by decide))
  have hnewline : y ≠ '\n'.toUInt8 := ne_of_le hy (by decide)
  rw [preludeStep, if_pos hlt, byteAt_eq hk, pure_bind, if_neg hquote, if_neg fun h => hslash h.1,
    if_neg fun h => hslash h.1, if_neg hopen, if_neg hclose, if_neg fun h => hsemicolon h.1,
    if_neg fun h => hbrace h.1, if_neg fun h => hnewline h.1]

theorem preludeStep_goesOver (depth : Nat) (b : List UInt8) :
    GoesOver (preludeStep surface b) (Prod.mk depth) b :=
  fun _ _ hk hy => loop_next (preludeStep_more surface depth hk hy)

variable {text left cs : List Char} {c previous : Char}

theorem preludeStep_char (depth : Nat) (h : text = left ++ c :: cs)
    (hprevious : EndsAs left previous) :
    preludeStep surface (utf8 text) (depth, byteLength left) =
      if c = '\x22' ∨ c = '\x27' then do
        let k ← stringEnd (utf8 text) (lead c) (byteLength left)
        pure (.inl (depth, k))
      else if c = '/' ∧ cs.head? = some '*' then do
        let k ← commentEnd (utf8 text) (byteLength left)
        pure (.inl (depth, k))
      else if c = '/' ∧ cs.head? = some '/' ∧ depth = 0 ∧ previous ≠ ':' then
        pure (.inr (byteLength left))
      else
        pure <|
          if c = '(' then .inl (depth + 1, byteLength left + 1)
          else if c = ')' then .inl (depth - 1, byteLength left + 1)
          else if c = ';' ∧ depth = 0 then .inr (byteLength left + 1)
          else if (c = '\x7b' ∨ c = '\x7d') ∧ depth = 0 then .inr (byteLength left)
          else if c = '\n' ∧ depth = 0 ∧ surface.newlineEnds = true then .inr (byteLength left)
          else .inl (depth, byteLength left + 1) := by
  rw [preludeStep, if_pos (lt_length_utf8 h), byteAt_eq (getElem?_utf8 h), pure_bind,
    followsColon_eq h hprevious]
  have hlead (d : Char) (hd : d.toNat < 128) : lead c = d.toUInt8 ↔ c = d := lead_eq_iff hd
  simp only [← and_assoc, slash_then_iff h '*' (by decide), slash_then_iff h '/' (by decide)]
  simp only [hlead '\x22' (by decide), hlead '\x27' (by decide), hlead '(' (by decide),
    hlead ')' (by decide), hlead ';' (by decide), hlead '\x7b' (by decide),
    hlead '\x7d' (by decide), hlead '\n' (by decide)]
  by_cases hline : (c = '/' ∧ cs.head? = some '/') ∧ depth = 0
  · -- An address goes on at its second slash, like any character without a case of its own.
    obtain ⟨⟨rfl, hnext⟩, rfl⟩ := hline
    by_cases hcolon : previous = ':' <;> simp [hnext, hcolon]
  · have hline' : ¬(((c = '/' ∧ cs.head? = some '/') ∧ depth = 0) ∧ previous ≠ ':') :=
      fun h => hline h.1
    rw [if_neg hline, if_neg hline']

variable {surface}

/-- The scan of a prelude goes from character to character, but over strings and comments as a
whole, up to a mark that ends it or to the end of the text. What holds where the scan ends, and at
each place if it holds where the step from there leads, holds from any place on. -/
theorem prelude_induction {motive : Nat → List Char → Taken → Prop}
    (nil : ∀ depth, motive depth text ⟨[], []⟩)
    (mark : ∀ left c cs t stop, text = left ++ c :: cs → c ∈ ['/', ';', '\x7b', '\x7d', '\n'] →
      t.taken = [] ∨ t.taken = [';'] → stop = byteLength (left ++ t.taken) →
      preludeStep surface (utf8 text) (0, byteLength left) = pure (.inr stop) → motive 0 left t)
    (char : ∀ depth depth' left c cs t, text = left ++ c :: cs →
      Nesting.after ⟨none, depth⟩ c = ⟨none, depth'⟩ →
      preludeStep surface (utf8 text) (depth, byteLength left) =
        pure (.inl (depth', byteLength left + 1)) →
      motive depth' (left ++ [c]) t → motive depth left (t.push c))
    (string : ∀ depth left quote cs t, text = left ++ quote :: cs →
      quote = '\x22' ∨ quote = '\x27' →
      preludeStep surface (utf8 text) (depth, byteLength left) =
        pure (.inl (depth, byteLength (left ++ quote :: (quoted quote cs).taken))) →
      motive depth (left ++ quote :: (quoted quote cs).taken) t →
      motive depth left ⟨quote :: (quoted quote cs).taken ++ t.taken, t.rest⟩)
    (comment : ∀ depth left cs t, text = left ++ '/' :: '*' :: cs →
      preludeStep surface (utf8 text) (depth, byteLength left) =
        pure (.inl (depth, byteLength (left ++ '/' :: '*' :: (blockComment cs).taken))) →
      motive depth (left ++ '/' :: '*' :: (blockComment cs).taken) t →
      motive depth left ⟨'/' :: '*' :: (blockComment cs).taken ++ t.taken, t.rest⟩)
    (depth : Nat) (h : text = left ++ cs) (hprevious : EndsAs left previous) :
    motive depth left (prelude surface depth previous cs) := by
  have hnone (left : List Char) : byteLength left = byteLength (left ++ []) := by
    rw [List.append_nil]
  fun_induction prelude surface depth previous cs generalizing left with
  | case1 depth previous =>
    rw [List.append_nil] at h
    rw [← h]
    exact nil depth
  | case2 depth previous c cs hquote s r =>
    rename_i ih
    have hascii : c.toNat < 128 := toNat_lt_of_quote hquote
    have hstep := preludeStep_char surface depth h hprevious
    rw [if_pos hquote, (bytes_of_lt hascii).1, stringEnd_eq hascii h, pure_bind] at hstep
    have hall : s.taken ++ s.rest = cs := all_quoted c cs
    have hrest : text = left ++ c :: s.taken ++ s.rest := by
      rw [h, List.append_assoc, List.cons_append, hall]
    have hlast := List.getLast?_append_of_ne_nil left (List.cons_ne_nil c s.taken)
    rw [List.getLast?_eq_some_getLast (List.cons_ne_nil c s.taken)] at hlast
    exact string depth left c cs r h hquote hstep (ih hrest (endsAs_of_getLast? hlast))
  | case3 depth previous c cs hquote hcomment s r =>
    rename_i ih
    have hstep := preludeStep_char surface depth h hprevious
    obtain ⟨rfl, hstar⟩ := hcomment
    obtain ⟨ds, rfl⟩ := List.head?_eq_some_iff.mp hstar
    rw [if_neg hquote, if_pos ⟨rfl, rfl⟩, commentEnd_eq h, pure_bind] at hstep
    have hall : s.taken ++ s.rest = ds := all_blockComment ds
    have hrest : text = left ++ '/' :: '*' :: s.taken ++ s.rest := by
      rw [h, List.append_assoc, List.cons_append, List.cons_append, hall]
    have hlast := List.getLast?_append_of_ne_nil (left ++ ['/']) (List.cons_ne_nil '*' s.taken)
    rw [← List.append_cons, List.getLast?_eq_some_getLast (List.cons_ne_nil '*' s.taken)] at hlast
    exact comment depth left ds r h hstep (ih hrest (endsAs_of_getLast? hlast))
  | case4 depth previous c cs hquote hcomment hline =>
    have hstep := preludeStep_char surface depth h hprevious
    rw [if_neg hquote, if_neg hcomment, if_pos hline] at hstep
    obtain ⟨rfl, -, rfl, -⟩ := hline
    exact mark left _ cs _ _ h (by decide) (.inl rfl) (hnone left) hstep
  | case5 depth previous cs hquote hcomment hline ih =>
    have hstep := preludeStep_char surface depth h hprevious
    rw [if_neg hquote, if_neg hcomment, if_neg hline, if_pos rfl] at hstep
    exact char depth (depth + 1) left _ cs _ h rfl hstep
      (ih (h.trans (List.append_cons left _ cs)) (endsAs_concat left _))
  | case6 depth previous cs hquote hcomment hline hopen ih =>
    have hstep := preludeStep_char surface depth h hprevious
    rw [if_neg hquote, if_neg hcomment, if_neg hline, if_neg hopen, if_pos rfl] at hstep
    exact char depth (depth - 1) left _ cs _ h rfl hstep
      (ih (h.trans (List.append_cons left _ cs)) (endsAs_concat left _))
  | case7 depth previous c cs hquote hcomment hline hopen hclose hsemicolon =>
    have hstep := preludeStep_char surface depth h hprevious
    rw [if_neg hquote, if_neg hcomment, if_neg hline, if_neg hopen, if_neg hclose,
      if_pos hsemicolon] at hstep
    obtain ⟨rfl, rfl⟩ := hsemicolon
    have hstop := byteLength_concat_of_lt (by decide : ';'.toNat < 128) left
    exact mark left _ cs _ _ h (by decide) (.inr rfl) hstop.symm hstep
  | case8 depth previous c cs hquote hcomment hline hopen hclose hsemicolon hbrace =>
    have hstep := preludeStep_char surface depth h hprevious
    rw [if_neg hquote, if_neg hcomment, if_neg hline, if_neg hopen, if_neg hclose,
      if_neg hsemicolon, if_pos hbrace] at hstep
    obtain ⟨hc, rfl⟩ := hbrace
    refine mark left c cs _ _ h ?_ (.inl rfl) (hnone left) hstep
    rcases hc with rfl | rfl <;> decide
  | case9 depth previous c cs hquote hcomment hline hopen hclose hsemicolon hbrace hnewline =>
    have hstep := preludeStep_char surface depth h hprevious
    rw [if_neg hquote, if_neg hcomment, if_neg hline, if_neg hopen, if_neg hclose,
      if_neg hsemicolon, if_neg hbrace, if_pos hnewline] at hstep
    obtain ⟨rfl, rfl, -⟩ := hnewline
    exact mark left _ cs _ _ h (by decide) (.inl rfl) (hnone left) hstep
  | case10 depth previous c cs hquote hcomment hline hopen hclose hsemicolon hbrace hnewline ih =>
    have hstep := preludeStep_char surface depth h hprevious
    rw [if_neg hquote, if_neg hcomment, if_neg hline, if_neg hopen, if_neg hclose,
      if_neg hsemicolon, if_neg hbrace, if_neg hnewline] at hstep
    have hafter : Nesting.after ⟨none, depth⟩ c = ⟨none, depth⟩ := by
      simp only [Nesting.after, if_neg hquote, if_neg hopen, if_neg hclose]
    exact char depth depth left c cs _ h hafter hstep
      (ih (h.trans (List.append_cons left c cs)) (endsAs_concat left c))

variable (surface)

theorem loop_preludeStep (depth : Nat) (h : text = left ++ cs)
    (hprevious : EndsAs left previous) :
    loop (preludeStep surface (utf8 text)) (depth, byteLength left) =
      pure (byteLength (left ++ (prelude surface depth previous cs).taken)) := by
  refine prelude_induction (motive := fun depth left t =>
    loop (preludeStep surface (utf8 text)) (depth, byteLength left) =
      pure (byteLength (left ++ t.taken))) ?nil ?mark ?char ?string ?comment depth h hprevious
  case nil =>
    intro depth
    rw [loop_done (preludeStep_end surface (Nat.le_of_eq (length_utf8 text))), length_utf8,
      List.append_nil]
  case mark =>
    intro left c cs t stop _ _ _ hstop hstep
    rw [loop_done hstep, hstop]
  case char =>
    intro depth depth' left c cs t h _ hstep ih
    exact loop_push (loop_next hstep) (preludeStep_goesOver surface depth' (utf8 text)) h ih
  case string =>
    intro depth left quote cs t _ _ hstep ih
    rw [loop_next hstep, ih, List.append_assoc]
  case comment =>
    intro depth left cs t _ hstep ih
    rw [loop_next hstep, ih, List.append_assoc]

end preludes

end SourceDeps.Stylesheet.ByteReader

import Mathlib.Data.List.TakeDrop
import SourceDeps.Json.Number
import SourceDeps.Proofs.Except

namespace SourceDeps.Json.Number

/-- Digits, at least one. -/
structure DigitRun where
  first : Char
  more : List Char
  isDigit : ∀ c ∈ first :: more, c.isDigit = true

def DigitRun.chars (ds : DigitRun) : List Char := ds.first :: ds.more

/-- An exponent with its mark and its sign, if it has one. -/
structure Exponent where
  mark : Char
  sign : List Char
  digits : DigitRun
  mark_eq : mark = 'e' ∨ mark = 'E'
  sign_eq : sign = [] ∨ sign = ['+'] ∨ sign = ['-']

/-- A number as it is written. Only zero itself begins with a zero. -/
structure Written where
  negative : Bool
  whole : DigitRun
  fraction : Option DigitRun
  exponent : Option Exponent
  no_leading_zero : ∀ c cs, whole.chars ≠ '0' :: c :: cs

/-- The text of an exponent behind its mark. -/
def Exponent.tail (x : Exponent) : List Char := x.sign ++ x.digits.chars

def Exponent.chars (x : Exponent) : List Char := x.mark :: x.tail

/-- The text of a number behind its fraction. -/
def exponentChars : Option Exponent → List Char
  | none => []
  | some x => x.chars

/-- The text of a number behind its whole part. -/
def Written.tail (w : Written) : List Char :=
  match w.fraction with
  | none => exponentChars w.exponent
  | some ds => '.' :: (ds.chars ++ exponentChars w.exponent)

/-- The text of a number behind its sign. -/
def Written.unsigned (w : Written) : List Char := w.whole.chars ++ w.tail

def Written.chars (w : Written) : List Char :=
  if w.negative then '-' :: w.unsigned else w.unsigned

/-- No character of some stands at the start of a text. -/
def StartsWithNone (p : Char → Bool) (cs : List Char) : Prop := ∀ c ∈ cs.head?, p c = false

/-- A character that may go on with a number. -/
def goesOn (c : Char) : Bool := c.isDigit || c == '.' || c == 'e' || c == 'E'

/-- The text that follows a number does not belong to it. -/
def Written.EndsBefore (w : Written) (rest : List Char) : Prop :=
  StartsWithNone Char.isDigit rest ∧
    (w.exponent = none → StartsWithNone (fun c => c == 'e' || c == 'E') rest ∧
      (w.fraction = none → StartsWithNone (· == '.') rest))

variable {cs rest : List Char} {p : Char → Bool}

theorem StartsWithNone.nil : StartsWithNone p [] := by
  intro c hc
  cases hc

theorem StartsWithNone.cons {c : Char} (h : p c = false) : StartsWithNone p (c :: cs) := by
  intro d hd
  cases hd
  exact h

theorem StartsWithNone.of_ne {p : Char → Bool} (h : ∀ c, p c = true → ∀ cs, rest ≠ c :: cs) :
    StartsWithNone p rest := by
  intro c hc
  cases rest with
  | nil => cases hc
  | cons d cs =>
    cases hc
    exact Bool.eq_false_iff.mpr fun hp => h c hp cs rfl

theorem StartsWithNone.mono {q : Char → Bool} (h : StartsWithNone p cs)
    (hpq : ∀ c, p c = false → q c = false) : StartsWithNone q cs :=
  fun c hc => hpq c (h c hc)

theorem StartsWithNone.takeWhile_eq (h : StartsWithNone p rest) : rest.takeWhile p = [] := by
  cases rest with
  | nil => rfl
  | cons c rest => rw [List.takeWhile_cons, if_neg (Bool.eq_false_iff.mp (h c rfl))]

theorem StartsWithNone.dropWhile_eq (h : StartsWithNone p rest) : rest.dropWhile p = rest := by
  cases rest with
  | nil => rfl
  | cons c rest => rw [List.dropWhile_cons, if_neg (Bool.eq_false_iff.mp (h c rfl))]

theorem goesOn_eq_false {c : Char} (h : goesOn c = false) :
    c.isDigit = false ∧ (c == '.') = false ∧ (c == 'e' || c == 'E') = false := by
  simp only [goesOn, Bool.or_eq_false_iff] at h ⊢
  exact ⟨h.1.1.1, h.1.1.2, h.1.2, h.2⟩

/-- Any number ends where no character may go on with one. -/
theorem endsBefore_of_goesOn (w : Written) (h : StartsWithNone goesOn rest) :
    w.EndsBefore rest :=
  ⟨h.mono fun _ hc => (goesOn_eq_false hc).1, fun _ =>
    ⟨h.mono fun _ hc => (goesOn_eq_false hc).2.2, fun _ =>
      h.mono fun _ hc => (goesOn_eq_false hc).2.1⟩⟩

theorem digits_append (ds : DigitRun) (h : StartsWithNone Char.isDigit rest) :
    digits (ds.chars ++ rest) = (ds.chars, rest) := by
  have hdigit : ∀ c ∈ ds.chars, c.isDigit = true := ds.isDigit
  rw [digits, List.span_eq_takeWhile_dropWhile, List.takeWhile_append_of_pos hdigit,
    List.dropWhile_append_of_pos hdigit, h.takeWhile_eq, h.dropWhile_eq, List.append_nil]

theorem startsWithNone_exponentChars (x : Option Exponent) (h : StartsWithNone Char.isDigit rest) :
    StartsWithNone Char.isDigit (exponentChars x ++ rest) := by
  cases x with
  | none => exact h
  | some x =>
    refine StartsWithNone.cons ?_
    rcases x.mark_eq with hmark | hmark <;> rw [hmark] <;> rfl

theorem startsWithNone_tail (w : Written) (h : StartsWithNone Char.isDigit rest) :
    StartsWithNone Char.isDigit (w.tail ++ rest) := by
  unfold Written.tail
  cases w.fraction with
  | none => exact startsWithNone_exponentChars w.exponent h
  | some ds => exact StartsWithNone.cons rfl

theorem exponentSign_tail (x : Exponent) :
    ∃ below, ∀ rest, exponentSign (x.tail ++ rest) = (below, x.digits.chars ++ rest) := by
  unfold Exponent.tail
  rcases x.sign_eq with hsign | hsign | hsign
  · refine ⟨false, fun rest => ?_⟩
    have hdigit : x.digits.first.isDigit = true := x.digits.isDigit _ List.mem_cons_self
    rw [hsign, List.nil_append, DigitRun.chars, List.cons_append]
    -- A digit is no sign.
    unfold exponentSign
    split
    · next heq =>
      rw [(List.cons.inj heq).1] at hdigit
      cases hdigit
    · next heq =>
      rw [(List.cons.inj heq).1] at hdigit
      cases hdigit
    · rfl
  · exact ⟨false, fun rest => by rw [hsign]; rfl⟩
  · exact ⟨true, fun rest => by rw [hsign]; rfl⟩

theorem skipExponent_tail (x : Exponent) (h : StartsWithNone Char.isDigit rest) :
    skipExponent (x.tail ++ rest) = .ok rest := by
  obtain ⟨below, hsign⟩ := exponentSign_tail x
  rw [skipExponent, hsign, digits_append x.digits h]
  rfl

/-- What is read from a text does not depend on what follows it. -/
def ReadsOn (f : List Char → Except Stop (Number × List Char)) (cs : List Char)
    (ends : List Char → Prop) : Prop :=
  ∃ v : Except Stop Number, ∀ rest, ends rest → f (cs ++ rest) = v.map (·, rest)

theorem withExponent_readsOn (negative : Bool) (n : Nat) (e : Int) (x : Exponent) :
    ReadsOn (withExponent negative n e) x.tail (StartsWithNone Char.isDigit) := by
  obtain ⟨below, hsign⟩ := exponentSign_tail x
  apply Exists.intro
  intro rest h
  rw [withExponent, hsign]
  dsimp only
  rw [digits_append x.digits h]
  rfl

/-- What may follow a number that has a fraction, with or without an exponent. -/
def EndsAfter (x : Option Exponent) (rest : List Char) : Prop :=
  StartsWithNone Char.isDigit rest ∧
    (x = none → StartsWithNone (fun c => c == 'e' || c == 'E') rest)

theorem EndsAfter.cases {rest : List Char} (h : EndsAfter none rest) :
    rest = [] ∨ ∃ c cs, rest = c :: cs ∧ c ≠ 'e' ∧ c ≠ 'E' := by
  cases rest with
  | nil => exact .inl rfl
  | cons c cs =>
    have hc := h.2 rfl c rfl
    simp only [Bool.or_eq_false_iff, beq_eq_false_iff_ne] at hc
    exact .inr ⟨c, cs, rfl, hc⟩

theorem skipFraction_append (ds : DigitRun) (x : Option Exponent) (h : EndsAfter x rest) :
    skipFraction (ds.chars ++ (exponentChars x ++ rest)) = .ok rest := by
  rw [skipFraction, digits_append ds (startsWithNone_exponentChars x h.1)]
  cases x with
  | none =>
    obtain rfl | ⟨c, cs, rfl, he, hE⟩ := h.cases
    · rfl
    · simp [exponentChars, DigitRun.chars, he, hE]
  | some x =>
    rw [exponentChars, Exponent.chars]
    rcases x.mark_eq with hmark | hmark <;> rw [hmark] <;> exact skipExponent_tail x h.1

theorem withFraction_readsOn (negative : Bool) (n : Nat) (e : Int) (ds : DigitRun)
    (x : Option Exponent) :
    ReadsOn (withFraction negative n e) (ds.chars ++ exponentChars x) (EndsAfter x) := by
  -- The number that the digits add up to, and the exponent that they leave.
  let m := (fill n ds.chars).1
  let f := e - (ds.chars.length - (fill n ds.chars).2.length : Nat)
  cases x with
  | none =>
    refine ⟨ofParts negative m f, fun rest h => ?_⟩
    rw [withFraction, List.append_assoc, digits_append ds (startsWithNone_exponentChars none h.1)]
    obtain rfl | ⟨c, cs, rfl, he, hE⟩ := h.cases
    · rfl
    · simp [exponentChars, DigitRun.chars, he, hE, m, f]
  | some x =>
    obtain ⟨v, hv⟩ := withExponent_readsOn negative m f x
    refine ⟨v, fun rest h => ?_⟩
    rw [withFraction, List.append_assoc,
      digits_append ds (startsWithNone_exponentChars (some x) h.1), ← hv rest h.1, exponentChars,
      Exponent.chars]
    rcases x.mark_eq with hmark | hmark <;> rw [hmark] <;> rfl

theorem EndsBefore.cases {w : Written} (h : w.EndsBefore rest) (hx : w.exponent = none)
    (hf : w.fraction = none) :
    rest = [] ∨ ∃ c cs, rest = c :: cs ∧ c ≠ '.' ∧ c ≠ 'e' ∧ c ≠ 'E' := by
  obtain ⟨hmark, hpoint⟩ := h.2 hx
  cases rest with
  | nil => exact .inl rfl
  | cons c cs =>
    have hc := hmark c rfl
    simp only [Bool.or_eq_false_iff, beq_eq_false_iff_ne] at hc
    exact .inr ⟨c, cs, rfl, beq_eq_false_iff_ne.mp (hpoint hf c rfl), hc⟩

/-- The digits of a number are taken whole, and no zero stands in front of them. -/
theorem digits_whole (w : Written) (h : StartsWithNone Char.isDigit rest) :
    ∃ c ds, digits (w.whole.chars ++ rest) = (c :: ds, rest) ∧ w.whole.chars = c :: ds ∧
      (c = '0' → ds = []) := by
  refine ⟨w.whole.first, w.whole.more, digits_append w.whole h, rfl, fun hzero => ?_⟩
  cases hmore : w.whole.more with
  | nil => rfl
  | cons d ds => exact absurd (by rw [DigitRun.chars, hzero, hmore]) (w.no_leading_zero d ds)

theorem skipUnsigned_eq {c : Char} {ds : List Char} (hdigits : digits cs = (c :: ds, rest))
    (hzero : c = '0' → ds = []) :
    skipUnsigned cs = (fun
      | '.' :: rest => skipFraction rest
      | 'e' :: rest | 'E' :: rest => skipExponent rest
      | rest => .ok rest) rest := by
  rw [skipUnsigned, hdigits]
  split
  · next heq => cases heq
  · next heq =>
    cases heq
    cases hzero rfl
  · next heq =>
    cases heq
    rfl
  · next heq =>
    cases heq
    rfl
  · next heq =>
    cases heq
    rfl
  · next hpoint he hE heq =>
    cases heq
    dsimp only
    split
    · exact absurd rfl (hpoint _)
    · exact absurd rfl (he _)
    · exact absurd rfl (hE _)
    · rfl

/-- The number that digits add up to, if some of them do not fit in 64 bits. -/
def wholeValue (negative : Bool) (ds : List Char) : Except Stop Number :=
  if (fill 0 ds).2.isEmpty then .ok (ofDigits negative (fill 0 ds).1)
  else ofParts negative (fill 0 ds).1 (fill 0 ds).2.length

theorem map_wholeValue (negative : Bool) (ds rest : List Char) :
    (wholeValue negative ds).map (·, rest) =
      if (fill 0 ds).2.isEmpty then .ok (ofDigits negative (fill 0 ds).1, rest)
      else (ofParts negative (fill 0 ds).1 (fill 0 ds).2.length).map (·, rest) := by
  unfold wholeValue
  split <;> rfl

theorem readUnsigned_eq {c : Char} {ds : List Char} (negative : Bool)
    (hdigits : digits cs = (c :: ds, rest)) (hzero : c = '0' → ds = []) :
    readUnsigned negative cs =
      (fun
        | '.' :: rest => withFraction negative (fill 0 (c :: ds)).1 (fill 0 (c :: ds)).2.length rest
        | 'e' :: rest | 'E' :: rest =>
          withExponent negative (fill 0 (c :: ds)).1 (fill 0 (c :: ds)).2.length rest
        | rest =>
          if (fill 0 (c :: ds)).2.isEmpty then .ok (ofDigits negative (fill 0 (c :: ds)).1, rest)
          else (ofParts negative (fill 0 (c :: ds)).1 (fill 0 (c :: ds)).2.length).map (·, rest))
        rest := by
  rw [readUnsigned, hdigits]
  split
  · next heq => cases heq
  · next heq =>
    cases heq
    cases hzero rfl
  · next heq =>
    cases heq
    rfl

theorem skipUnsigned_append (w : Written) (h : w.EndsBefore rest) :
    skipUnsigned (w.unsigned ++ rest) = .ok rest := by
  have hends : EndsAfter w.exponent rest := ⟨h.1, fun hx => (h.2 hx).1⟩
  obtain ⟨c, ds, hdigits, -, hzero⟩ := digits_whole w (startsWithNone_tail w h.1)
  rw [Written.unsigned, List.append_assoc, skipUnsigned_eq hdigits hzero]
  cases hf : w.fraction with
  | some fs =>
    simp only [Written.tail, hf, List.cons_append, List.append_assoc]
    exact skipFraction_append fs w.exponent hends
  | none =>
    simp only [Written.tail, hf]
    cases hx : w.exponent with
    | some x =>
      dsimp only [exponentChars, Exponent.chars, List.cons_append]
      rcases x.mark_eq with hmark | hmark <;> rw [hmark] <;> exact skipExponent_tail x h.1
    | none =>
      obtain rfl | ⟨d, rest, rfl, hpoint, he, hE⟩ := EndsBefore.cases h hx hf
      · rfl
      · simp [exponentChars, hpoint, he, hE]

theorem readUnsigned_readsOn (negative : Bool) (w : Written) :
    ReadsOn (readUnsigned negative) w.unsigned w.EndsBefore := by
  let m := (fill 0 w.whole.chars).1
  let left := (fill 0 w.whole.chars).2
  have hdigits : ∀ rest, w.EndsBefore rest → ∃ c ds,
      digits (w.whole.chars ++ (w.tail ++ rest)) = (c :: ds, w.tail ++ rest) ∧
        w.whole.chars = c :: ds ∧ (c = '0' → ds = []) :=
    fun rest h => digits_whole w (startsWithNone_tail w h.1)
  cases hf : w.fraction with
  | some fs =>
    obtain ⟨v, hv⟩ := withFraction_readsOn negative m left.length fs w.exponent
    refine ⟨v, fun rest h => ?_⟩
    obtain ⟨c, ds, hdigits, hwhole, hzero⟩ := hdigits rest h
    rw [Written.unsigned, List.append_assoc, readUnsigned_eq negative hdigits hzero, ← hwhole,
      ← hv rest ⟨h.1, fun hx => (h.2 hx).1⟩]
    simp only [Written.tail, hf, List.cons_append]
    rfl
  | none =>
    cases hx : w.exponent with
    | some x =>
      obtain ⟨v, hv⟩ := withExponent_readsOn negative m left.length x
      refine ⟨v, fun rest h => ?_⟩
      obtain ⟨c, ds, hdigits, hwhole, hzero⟩ := hdigits rest h
      rw [Written.unsigned, List.append_assoc, readUnsigned_eq negative hdigits hzero, ← hwhole,
        ← hv rest h.1]
      simp only [Written.tail, hf, hx, exponentChars, Exponent.chars]
      rcases x.mark_eq with hmark | hmark <;> rw [hmark] <;> rfl
    | none =>
      refine ⟨wholeValue negative w.whole.chars, fun rest h => ?_⟩
      obtain ⟨c, ds, hdigits, hwhole, hzero⟩ := hdigits rest h
      rw [Written.unsigned, List.append_assoc, readUnsigned_eq negative hdigits hzero, ← hwhole,
        map_wholeValue]
      simp only [Written.tail, hf, hx, exponentChars, List.nil_append]
      obtain rfl | ⟨d, rest, rfl, hpoint, he, hE⟩ := EndsBefore.cases h hx hf
      · rfl
      · simp [hpoint, he, hE]

/-- A text without a sign in front is passed over and read as one without a sign. -/
theorem skip_eq_skipUnsigned (h : cs.head? ≠ some '-') : skip cs = skipUnsigned cs := by
  unfold skip
  split
  · exact absurd rfl h
  · rfl

theorem read_eq_readUnsigned (h : cs.head? ≠ some '-') : read cs = readUnsigned false cs := by
  unfold read
  split
  · exact absurd rfl h
  · rfl

theorem head?_unsigned (w : Written) (rest : List Char) :
    (w.unsigned ++ rest).head? ≠ some '-' := by
  intro h
  have hdigit : w.whole.first.isDigit = true := w.whole.isDigit _ List.mem_cons_self
  rw [Option.some.inj h] at hdigit
  cases hdigit

/-- A number is passed over whole. -/
theorem skip_append (w : Written) (h : w.EndsBefore rest) : skip (w.chars ++ rest) = .ok rest := by
  unfold Written.chars
  split
  · exact skipUnsigned_append w h
  · rw [skip_eq_skipUnsigned (head?_unsigned w rest)]
    exact skipUnsigned_append w h

/-- What a number is read as. -/
def Written.value (w : Written) : Except Stop Number := (read w.chars).map (·.1)

theorem read_append (w : Written) (h : w.EndsBefore rest) :
    read (w.chars ++ rest) = w.value.map (·, rest) := by
  have hreads : ReadsOn read w.chars w.EndsBefore := by
    unfold Written.chars
    split
    · obtain ⟨v, hv⟩ := readUnsigned_readsOn true w
      exact ⟨v, fun rest h => hv rest h⟩
    · obtain ⟨v, hv⟩ := readUnsigned_readsOn false w
      refine ⟨v, fun rest h => ?_⟩
      rw [read_eq_readUnsigned (head?_unsigned w rest)]
      exact hv rest h
  obtain ⟨v, hv⟩ := hreads
  have hnil : read w.chars = v.map (·, []) := by
    have hend := hv [] ⟨.nil, fun _ => ⟨.nil, fun _ => .nil⟩⟩
    rwa [List.append_nil] at hend
  have hvalue : w.value = v := by
    rw [Written.value, hnil]
    cases v <;> rfl
  rw [hvalue, hv rest h]

theorem startsWithNone_dropWhile (p : Char → Bool) (cs : List Char) :
    StartsWithNone p (cs.dropWhile p) := by
  intro c hc
  have hhead := List.head?_dropWhile_not p cs
  rw [hc] at hhead
  exact hhead

/-- Digits that are taken off a text. -/
theorem exists_digitRun {ds : List Char} (h : digits cs = (ds, rest)) (hne : ds ≠ []) :
    ∃ run : DigitRun, run.chars = ds ∧ cs = run.chars ++ rest ∧
      StartsWithNone Char.isDigit rest := by
  obtain ⟨c, ds, rfl⟩ := List.exists_cons_of_ne_nil hne
  rw [digits, List.span_eq_takeWhile_dropWhile, Prod.mk.injEq] at h
  obtain ⟨htake, rfl⟩ := h
  have hdigit : ∀ d ∈ c :: ds, d.isDigit = true := by
    rw [← htake]
    exact List.all_eq_true.mp List.all_takeWhile
  refine ⟨⟨c, ds, hdigit⟩, rfl, ?_, startsWithNone_dropWhile _ cs⟩
  rw [DigitRun.chars, ← htake, List.takeWhile_append_dropWhile]

theorem exists_exponentSign (cs : List Char) :
    ∃ sign, cs = sign ++ (exponentSign cs).2 ∧ (sign = [] ∨ sign = ['+'] ∨ sign = ['-']) := by
  unfold exponentSign
  split
  · exact ⟨['+'], rfl, .inr (.inl rfl)⟩
  · exact ⟨['-'], rfl, .inr (.inr rfl)⟩
  · exact ⟨[], rfl, .inl rfl⟩

theorem exists_exponent {mark : Char} (hmark : mark = 'e' ∨ mark = 'E')
    (h : skipExponent cs = .ok rest) :
    ∃ x : Exponent, mark :: cs = x.chars ++ rest ∧ StartsWithNone Char.isDigit rest := by
  obtain ⟨sign, hcs, hsign⟩ := exists_exponentSign cs
  unfold skipExponent at h
  split at h
  · cases h
  · next hne heq =>
    cases h
    obtain ⟨run, -, hrest, hend⟩ := exists_digitRun heq hne
    refine ⟨⟨mark, sign, run, hmark, hsign⟩, ?_, hend⟩
    rw [hcs, hrest]
    simp [Exponent.chars, Exponent.tail]

theorem startsWithNone_mark (he : ∀ cs, rest = 'e' :: cs → False)
    (hE : ∀ cs, rest = 'E' :: cs → False) :
    StartsWithNone (fun c => c == 'e' || c == 'E') rest := by
  refine .of_ne fun c hc cs => ?_
  rcases Bool.or_eq_true_iff.mp hc with hmark | hmark
  · rw [beq_iff_eq.mp hmark]
    exact he cs
  · rw [beq_iff_eq.mp hmark]
    exact hE cs

theorem exists_fraction (h : skipFraction cs = .ok rest) :
    ∃ (ds : DigitRun) (x : Option Exponent), cs = ds.chars ++ (exponentChars x ++ rest) ∧
      EndsAfter x rest := by
  unfold skipFraction at h
  split at h
  · cases h
  · next hne heq =>
    obtain ⟨run, -, hcs, -⟩ := exists_digitRun heq hne
    obtain ⟨x, hx, hend⟩ := exists_exponent (.inl rfl) h
    exact ⟨run, some x, by rw [hcs, hx, exponentChars], hend, fun hnone => by cases hnone⟩
  · next hne heq =>
    obtain ⟨run, -, hcs, -⟩ := exists_digitRun heq hne
    obtain ⟨x, hx, hend⟩ := exists_exponent (.inr rfl) h
    exact ⟨run, some x, by rw [hcs, hx, exponentChars], hend, fun hnone => by cases hnone⟩
  · next hne he hE heq =>
    cases h
    obtain ⟨run, -, hcs, hend⟩ := exists_digitRun heq hne
    exact ⟨run, none, hcs, hend, fun _ => startsWithNone_mark he hE⟩

theorem exists_written_unsigned (negative : Bool) (h : skipUnsigned cs = .ok rest) :
    ∃ w : Written, w.negative = negative ∧ cs = w.unsigned ++ rest ∧ w.EndsBefore rest := by
  have hzero : ∀ {run : DigitRun} {ds : List Char}, run.chars = ds →
      (∀ c cs, ds = '0' :: c :: cs → False) → ∀ c cs, run.chars ≠ '0' :: c :: cs := by
    intro run ds hrun hne c cs h
    exact hne c cs (hrun ▸ h)
  unfold skipUnsigned at h
  split at h
  · cases h
  · cases h
  · next hne hlead heq =>
    obtain ⟨run, hrun, hcs, -⟩ := exists_digitRun heq hne
    obtain ⟨ds, x, hfraction, hend⟩ := exists_fraction h
    refine ⟨⟨negative, run, some ds, x, hzero hrun hlead⟩, rfl, ?_, hend.1, ?_⟩
    · rw [hcs, hfraction]
      simp [Written.unsigned, Written.tail]
    · exact fun hx => ⟨hend.2 hx, fun hnone => by cases hnone⟩
  · next hne hlead heq =>
    obtain ⟨run, hrun, hcs, -⟩ := exists_digitRun heq hne
    obtain ⟨x, hx, hend⟩ := exists_exponent (.inl rfl) h
    refine ⟨⟨negative, run, none, some x, hzero hrun hlead⟩, rfl, ?_, hend,
      fun hnone => by cases hnone⟩
    rw [hcs, hx]
    simp [Written.unsigned, Written.tail, exponentChars]
  · next hne hlead heq =>
    obtain ⟨run, hrun, hcs, -⟩ := exists_digitRun heq hne
    obtain ⟨x, hx, hend⟩ := exists_exponent (.inr rfl) h
    refine ⟨⟨negative, run, none, some x, hzero hrun hlead⟩, rfl, ?_, hend,
      fun hnone => by cases hnone⟩
    rw [hcs, hx]
    simp [Written.unsigned, Written.tail, exponentChars]
  · next hne hlead hpoint he hE heq =>
    cases h
    obtain ⟨run, hrun, hcs, hend⟩ := exists_digitRun heq hne
    refine ⟨⟨negative, run, none, none, hzero hrun hlead⟩, rfl, ?_, hend, ?_⟩
    · rw [hcs]
      simp [Written.unsigned, Written.tail, exponentChars]
    · refine fun _ => ⟨startsWithNone_mark he hE, fun _ => .of_ne fun c hc cs => ?_⟩
      rw [beq_iff_eq.mp hc]
      exact hpoint cs

/-- What is passed over as a number is one. -/
theorem exists_written (h : skip cs = .ok rest) :
    ∃ w : Written, cs = w.chars ++ rest ∧ w.EndsBefore rest := by
  unfold skip at h
  split at h
  · obtain ⟨w, hsign, hcs, hend⟩ := exists_written_unsigned true h
    exact ⟨w, by rw [hcs, Written.chars, if_pos hsign, List.cons_append], hend⟩
  · obtain ⟨w, hsign, hcs, hend⟩ := exists_written_unsigned false h
    refine ⟨w, by rw [hcs, Written.chars, if_neg (by rw [hsign]; exact Bool.false_ne_true)], hend⟩

end SourceDeps.Json.Number

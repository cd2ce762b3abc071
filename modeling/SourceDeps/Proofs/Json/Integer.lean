import SourceDeps.Proofs.Json.Number

namespace SourceDeps.Json.Number

variable {cs rest : List Char}

theorem fill_lt {n : Nat} (h : n < wordCount) (ds : List Char) : (fill n ds).1 < wordCount := by
  induction ds generalizing n with
  | nil => exact h
  | cons d ds ih =>
    rw [fill]
    split
    · next hlt => exact ih hlt
    · exact h

theorem ofParts_floating {negative : Bool} {n : Nat} {e : Int} {v : Number}
    (h : ofParts negative n e = .ok v) : ∃ text, v = .floating text := by
  unfold ofParts at h
  split at h
  · cases h
    exact ⟨_, rfl⟩
  · cases h

theorem withExponent_floating {negative : Bool} {n : Nat} {e : Int} {v : Number}
    (h : withExponent negative n e cs = .ok (v, rest)) : ∃ text, v = .floating text := by
  unfold withExponent at h
  dsimp only at h
  split at h
  · cases h
  · obtain ⟨v', hv, heq⟩ := map_eq_ok.mp h
    cases heq
    split at hv
    · exact ofParts_floating hv
    · split at hv
      · cases hv
      · exact ofParts_floating hv

theorem withFraction_floating {negative : Bool} {n : Nat} {e : Int} {v : Number}
    (h : withFraction negative n e cs = .ok (v, rest)) : ∃ text, v = .floating text := by
  unfold withFraction at h
  dsimp only at h
  split at h
  · cases h
  · split at h
    · exact withExponent_floating h
    · exact withExponent_floating h
    · obtain ⟨v', hv, heq⟩ := map_eq_ok.mp h
      cases heq
      exact ofParts_floating hv

theorem ofDigits_integer {negative : Bool} {m : Nat} {n : Int} (hlt : m < wordCount)
    (h : ofDigits negative m = .integer n) : n < wordCount := by
  unfold ofDigits at h
  split at h
  · cases h
    exact Int.ofNat_lt.mpr hlt
  · split at h
    · cases h
      omega
    · cases h

theorem readUnsigned_integer {negative : Bool} {n : Int}
    (h : readUnsigned negative cs = .ok (.integer n, rest)) : n < wordCount := by
  unfold readUnsigned at h
  split at h
  · cases h
  · cases h
  · next ds _ _ _ _ =>
    have hlt : (fill 0 ds).1 < wordCount := fill_lt (by decide) ds
    dsimp only at h
    split at h
    · obtain ⟨_, hv⟩ := withFraction_floating h
      cases hv
    · obtain ⟨_, hv⟩ := withExponent_floating h
      cases hv
    · obtain ⟨_, hv⟩ := withExponent_floating h
      cases hv
    · split at h
      · rw [Except.ok.injEq, Prod.mk.injEq] at h
        exact ofDigits_integer hlt h.1
      · obtain ⟨_, hv, heq⟩ := map_eq_ok.mp h
        obtain ⟨_, rfl⟩ := ofParts_floating hv
        cases heq

/-- A whole number that is read fits in 64 bits. -/
theorem Written.value_integer_lt {w : Written} {n : Int} (h : w.value = .ok (.integer n)) :
    n < wordCount := by
  obtain ⟨⟨_, rest⟩, hread, rfl⟩ := map_eq_ok.mp h
  unfold read at hread
  split at hread
  · exact readUnsigned_integer hread
  · exact readUnsigned_integer hread

theorem digit_digitChar {d : Nat} (h : d < 10) : digit d.digitChar = d := by
  rw [digit, Nat.toNat_digitChar_of_lt_ten h]
  omega

theorem toDigits_eq (n : Nat) : Nat.toDigits 10 n =
    if n < 10 then [n.digitChar] else Nat.toDigits 10 (n / 10) ++ [(n % 10).digitChar] :=
  Nat.toDigits_eq_if (by decide)

/-- Digits that fit are all taken up, and more of them can follow. -/
theorem fill_append {m n : Nat} {ds : List Char} (h : fill n ds = (m, [])) (es : List Char) :
    fill n (ds ++ es) = fill m es := by
  induction ds generalizing n with
  | nil =>
    cases h
    rfl
  | cons d ds ih =>
    rw [fill] at h
    rw [List.cons_append, fill]
    split at h
    · next hlt => rw [if_pos hlt, ih h]
    · cases h

/-- The digits of a number add up to it. -/
theorem fill_toDigits {n : Nat} (h : n < wordCount) : fill 0 (Nat.toDigits 10 n) = (n, []) := by
  induction n using Nat.strongRecOn with
  | ind n ih =>
    rw [toDigits_eq]
    split
    · next hlt =>
      rw [fill, digit_digitChar hlt, Nat.zero_mul, Nat.zero_add, if_pos h]
      rfl
    · next hge =>
      have hprev := ih (n / 10) (by omega) (by omega)
      have hvalue : n / 10 * 10 + digit (n % 10).digitChar = n := by
        rw [digit_digitChar (Nat.mod_lt n (by decide))]
        omega
      rw [fill_append hprev, fill, hvalue, if_pos h]
      rfl

/-- No zero stands in front of the digits of a number. -/
theorem toDigits_ne_zero_cons {n : Nat} (h : 0 < n) (cs : List Char) :
    Nat.toDigits 10 n ≠ '0' :: cs := by
  induction n using Nat.strongRecOn generalizing cs with
  | ind n ih =>
    intro heq
    rw [toDigits_eq] at heq
    split at heq
    · next hlt =>
      have hdigit : digit n.digitChar = digit '0' := by rw [(List.cons.inj heq).1]
      rw [digit_digitChar hlt] at hdigit
      have hzero : digit '0' = 0 := rfl
      omega
    · next hge =>
      cases hprev : Nat.toDigits 10 (n / 10) with
      | nil => exact Nat.toDigits_ne_nil hprev
      | cons c ds =>
        rw [hprev, List.cons_append] at heq
        rw [(List.cons.inj heq).1] at hprev
        exact ih (n / 10) (by omega) (by omega) ds hprev

theorem no_leading_zero (n : Nat) (c : Char) (cs : List Char) :
    Nat.toDigits 10 n ≠ '0' :: c :: cs := by
  cases n with
  | zero =>
    intro h
    cases h
  | succ n => exact toDigits_ne_zero_cons (Nat.succ_pos n) _

/-- A whole number as it is written. -/
def Written.ofNat (n : Nat) : Written where
  negative := false
  whole := ⟨(Nat.toDigits 10 n).head Nat.toDigits_ne_nil, (Nat.toDigits 10 n).tail, by
    intro c hc
    rw [List.cons_head_tail] at hc
    exact Nat.isDigit_of_mem_toDigits (by decide) (by decide) hc⟩
  fraction := none
  exponent := none
  no_leading_zero := by
    intro c cs
    rw [DigitRun.chars, List.cons_head_tail]
    exact Number.no_leading_zero n c cs

theorem Written.chars_ofNat (n : Nat) : (ofNat n).chars = (toString (n : Int)).toList := by
  have hstring : (toString (n : Int)).toList = Nat.toDigits 10 n := by
    change (Nat.repr n).toList = _
    rw [Nat.repr, String.toList_ofList]
  rw [hstring]
  simp [Written.chars, Written.unsigned, Written.tail, ofNat, exponentChars, DigitRun.chars]

/-- A whole number of 64 bits is read as itself. -/
theorem Written.value_ofNat {n : Nat} (h : n < wordCount) :
    (ofNat n).value = .ok (.integer n) := by
  have hwhole : (ofNat n).whole.chars = Nat.toDigits 10 n := List.cons_head_tail _
  have hchars : (ofNat n).chars = (ofNat n).unsigned := rfl
  have hunsigned : (ofNat n).unsigned = (ofNat n).whole.chars ++ [] := rfl
  obtain ⟨c, ds, hdigits, hcons, hzero⟩ := digits_whole (ofNat n) StartsWithNone.nil
  have hfill : fill 0 (c :: ds) = (n, []) := by
    rw [← hcons, hwhole]
    exact fill_toDigits h
  have hread : read (ofNat n).chars = (wholeValue false (c :: ds)).map (·, []) := by
    rw [hchars, read_eq_readUnsigned (by simpa using head?_unsigned (ofNat n) []), hunsigned,
      readUnsigned_eq false hdigits hzero, map_wholeValue]
  rw [value, hread, wholeValue, hfill]
  rfl

end SourceDeps.Json.Number

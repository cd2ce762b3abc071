import SourceDeps.Text.Bytes

/-! Of the bytes of a character only the first byte of an ASCII character is below 128. So a byte
that is an ASCII character is that character in the text, wherever it is found. -/

namespace SourceDeps.Text

/-- The bytes of characters. -/
def utf8 (cs : List Char) : List UInt8 := cs.flatMap String.utf8EncodeChar

theorem utf8_append (cs ds : List Char) : utf8 (cs ++ ds) = utf8 cs ++ utf8 ds :=
  List.flatMap_append

theorem length_utf8 (cs : List Char) : (utf8 cs).length = byteLength cs := by
  induction cs with
  | nil => rfl
  | cons c cs ih =>
    rw [byteLength, ← ih, utf8, List.flatMap_cons, List.length_append,
      String.length_utf8EncodeChar]
    rfl

/-- The bytes of a text are those of its characters. -/
theorem toUTF8_bytes (s : String) : s.toUTF8.data.toList = utf8 s.toList := by
  have hbytes : s.toUTF8 = (utf8 s.toList).toByteArray := by
    rw [String.toUTF8_eq_toByteArray, ← String.utf8Encode_toList]
    rfl
  rw [hbytes, List.data_toByteArray]

/-- The first byte of a character. -/
def lead (c : Char) : UInt8 := (String.utf8EncodeChar c).head String.utf8EncodeChar_ne_nil

/-- The bytes of a character behind its first. -/
def more (c : Char) : List UInt8 := (String.utf8EncodeChar c).tail

theorem utf8EncodeChar_eq (c : Char) : String.utf8EncodeChar c = lead c :: more c :=
  (List.cons_head_tail String.utf8EncodeChar_ne_nil).symm

theorem utf8_cons (c : Char) (cs : List Char) : utf8 (c :: cs) = lead c :: (more c ++ utf8 cs) := by
  rw [utf8, List.flatMap_cons, utf8EncodeChar_eq]
  rfl

theorem bytes_of_lt {c : Char} (h : c.toNat < 128) : lead c = c.toUInt8 ∧ more c = [] := by
  have hsize : c.utf8Size = 1 := by
    rw [Char.utf8Size_eq_one_iff, UInt32.le_iff_toNat_le]
    exact Nat.le_of_lt_succ h
  have hbytes := String.utf8EncodeChar_eq_singleton hsize
  rw [utf8EncodeChar_eq, List.cons.injEq] at hbytes
  exact hbytes

theorem le_ofNat {n : Nat} (h : 128 ≤ n) (hlt : n < 256) : 128 ≤ UInt8.ofNat n := by
  rw [UInt8.le_iff_toNat_le, UInt8.toNat_ofNat', Nat.mod_eq_of_lt hlt]
  exact h

theorem le_of_mem_utf8EncodeChar {c : Char} (hc : 128 ≤ c.toNat) {y : UInt8}
    (hy : y ∈ String.utf8EncodeChar c) : 128 ≤ y := by
  revert hy
  fun_cases String.utf8EncodeChar c with
  | case1 v h =>
    have hle : c.toNat ≤ 127 := h
    omega
  | case2 v _ h =>
    have hle : v ≤ 2047 := h
    simp only [List.mem_cons, List.not_mem_nil, or_false]
    rintro (rfl | rfl) <;> exact le_ofNat (by omega) (by omega)
  | case3 v _ _ h =>
    simp only [List.mem_cons, List.not_mem_nil, or_false]
    rintro (rfl | rfl | rfl) <;> exact le_ofNat (by omega) (by omega)
  | case4 v =>
    simp only [List.mem_cons, List.not_mem_nil, or_false]
    rintro (rfl | rfl | rfl | rfl) <;> exact le_ofNat (by omega) (by omega)

theorem le_lead {c : Char} (h : 128 ≤ c.toNat) : 128 ≤ lead c :=
  le_of_mem_utf8EncodeChar h (List.head_mem _)

theorem le_of_mem_more {c : Char} {y : UInt8} (h : y ∈ more c) : 128 ≤ y := by
  by_cases hc : c.toNat < 128
  · rw [(bytes_of_lt hc).2] at h
    cases h
  · exact le_of_mem_utf8EncodeChar (Nat.le_of_not_lt hc) (List.mem_of_mem_tail h)

theorem toNat_toUInt8 {c : Char} (h : c.toNat < 128) : c.toUInt8.toNat = c.toNat := by
  rw [Char.toUInt8, UInt32.toNat_toUInt8]
  exact Nat.mod_eq_of_lt (Nat.lt_trans h (by decide))

/-- A byte from 128 on is no ASCII character. -/
theorem ne_of_le {y : UInt8} (hy : 128 ≤ y) {d : Char} (hd : d.toNat < 128) : y ≠ d.toUInt8 := by
  rintro rfl
  rw [UInt8.le_iff_toNat_le, toNat_toUInt8 hd] at hy
  exact absurd hd (Nat.not_lt_of_le hy)

/-- A character begins with the byte of an ASCII character only if it is that character. -/
theorem lead_eq_iff {c d : Char} (hd : d.toNat < 128) : lead c = d.toUInt8 ↔ c = d := by
  constructor
  · intro h
    by_cases hc : c.toNat < 128
    · rw [(bytes_of_lt hc).1] at h
      have hsame : c.toNat = d.toNat := by rw [← toNat_toUInt8 hc, h, toNat_toUInt8 hd]
      exact Char.toNat_inj.mp hsame
    · exact absurd h (ne_of_le (le_lead (Nat.le_of_not_lt hc)) hd)
  · rintro rfl
    exact (bytes_of_lt hd).1

/-- A text ends with an ASCII character if its bytes end with it. -/
theorem getLast?_utf8 {d : Char} (hd : d.toNat < 128) (cs : List Char) :
    (utf8 cs).getLast? = some d.toUInt8 ↔ cs.getLast? = some d := by
  rcases List.eq_nil_or_concat cs with rfl | ⟨cs, c, rfl⟩
  · simp [utf8]
  · have hlast : (utf8 (cs.concat c)).getLast? = some ((more c).getLast?.getD (lead c)) := by
      rw [List.concat_eq_append, utf8_append, utf8_cons, List.getLast?_append]
      simp only [utf8, List.flatMap_nil, List.append_nil, List.getLast?_cons, Option.some_or]
    rw [hlast, List.concat_eq_append, List.getLast?_concat, Option.some.injEq, Option.some.injEq]
    cases hmore : (more c).getLast? with
    | none => exact lead_eq_iff hd
    | some y =>
      have hmem : y ∈ more c := List.mem_of_getLast? hmore
      have hc : c ≠ d := by
        rintro rfl
        rw [(bytes_of_lt hd).2] at hmem
        cases hmem
      exact iff_of_false (ne_of_le (le_of_mem_more hmem) hd) hc

/-- How often an ASCII character stands in a text can be counted in its bytes. -/
theorem count_utf8 {d : Char} (hd : d.toNat < 128) (cs : List Char) :
    (utf8 cs).count d.toUInt8 = cs.count d := by
  induction cs with
  | nil => rfl
  | cons c cs ih =>
    have hmore : (more c).count d.toUInt8 = 0 :=
      List.count_eq_zero.mpr fun hmem => ne_of_le (le_of_mem_more hmem) hd rfl
    rw [utf8_cons, List.count_cons, List.count_append, hmore, Nat.zero_add, ih, List.count_cons]
    simp only [beq_iff_eq, lead_eq_iff hd]

theorem mem_utf8 {d : Char} (hd : d.toNat < 128) (cs : List Char) :
    d.toUInt8 ∈ utf8 cs ↔ d ∈ cs := by
  rw [← List.count_pos_iff, count_utf8 hd, List.count_pos_iff]

theorem toNat_val_lt (c : Char) : c.val.toNat < 1114112 := by
  have hvalid : c.val.toNat.isValidChar := c.valid
  unfold Nat.isValidChar at hvalid
  omega

/-- The bytes of a smaller character are smaller, whatever follows. -/
theorem utf8EncodeChar_append_lt {c d : Char} (h : c < d) (xs ys : List UInt8) :
    String.utf8EncodeChar c ++ xs < String.utf8EncodeChar d ++ ys := by
  have hlt : c.val.toNat < d.val.toNat := h
  have hd : d.val.toNat < 1114112 := toNat_val_lt d
  -- The number of bytes does not fall. If it is the same, the bytes are digits of the character.
  fun_cases String.utf8EncodeChar c <;> fun_cases String.utf8EncodeChar d <;>
    simp (disch := omega) only [List.cons_append, List.cons_lt_cons_iff, UInt8.lt_iff_toNat_lt,
      ← UInt8.toNat_inj, UInt8.toNat_ofNat', Nat.mod_eq_of_lt] <;>
    omega

theorem utf8_lt_utf8_of_lt {cs ds : List Char} (h : cs < ds) : utf8 cs < utf8 ds := by
  induction h with
  | nil =>
    rw [utf8_cons]
    exact List.nil_lt_cons _ _
  | @rel c cs d ds h => exact utf8EncodeChar_append_lt h _ _
  | @cons c cs ds _ ih =>
    exact List.append_left_lt ih

/-- Texts are ordered as their bytes are. -/
theorem utf8_lt_utf8_iff {cs ds : List Char} : utf8 cs < utf8 ds ↔ cs < ds := by
  refine ⟨fun h => ?_, utf8_lt_utf8_of_lt⟩
  by_cases hlt : cs < ds
  · exact hlt
  · rcases List.le_iff_lt_or_eq.mp (List.not_lt.mp hlt) with hgt | rfl
    · exact absurd h (List.lt_asymm (utf8_lt_utf8_of_lt hgt))
    · exact absurd h (List.lt_irrefl _)

end SourceDeps.Text

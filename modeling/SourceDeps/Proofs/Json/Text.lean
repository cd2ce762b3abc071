import SourceDeps.Json.Reader
import SourceDeps.Proofs.Json.Number
import SourceDeps.Proofs.Json.Quoted

namespace SourceDeps.Json

/-- White space between the marks of a text. -/
structure Spacing where
  chars : List Char
  blank : ∀ c ∈ chars, isSpace c = true

/-- A value with the white space around it. -/
structure Item where
  before : Spacing
  text : List Char
  draft : Draft
  after : Spacing

/-- A member of an object with the white space in it. -/
structure Member where
  before : Spacing
  name : Quoted.Body
  between : Spacing
  value : Item

/-- The draft of a number. -/
def Number.Written.draft (w : Number.Written) : Draft := .number w.value none

/-- The draft of a string. -/
def Quoted.Body.draft (b : Quoted.Body) : Draft := .string b.value none

def Member.draft (m : Member) : Draft × Draft := (m.name.draft, m.value.draft)

def Item.chars (i : Item) : List Char := i.before.chars ++ (i.text ++ i.after.chars)

def Member.chars (m : Member) : List Char :=
  m.before.chars ++ (m.name.quoted ++ (m.between.chars ++ ':' :: m.value.chars))

/-- Texts with a comma in front of each, and the bracket after them. -/
def continued (bracket : Char) : List (List Char) → List Char
  | [] => [bracket]
  | text :: texts => ',' :: (text ++ continued bracket texts)

/-- Texts with commas between them, and the bracket after them; `gap` stands where there are no
texts. -/
def listed (bracket : Char) (gap : Spacing) : List (List Char) → List Char
  | [] => gap.chars ++ [bracket]
  | text :: texts => text ++ continued bracket texts

/-- What is left of a list: all of it, or what stands behind an element. -/
def remaining (bracket : Char) : Bool → Spacing → List (List Char) → List Char
  | true, sp, texts => listed bracket sp texts
  | false, sp, texts => sp.chars ++ continued bracket texts

def arrayChars (gap : Spacing) (items : List Item) : List Char :=
  '[' :: listed ']' gap (items.map (·.chars))

def objectChars (gap : Spacing) (members : List Member) : List Char :=
  '\x7b' :: listed '\x7d' gap (members.map (·.chars))

/-- The texts of values without white space around them, each with the draft of its value. -/
inductive IsText : List Char → Draft → Prop
  | null : IsText "null".toList .null
  | boolean (b : Bool) : IsText (if b then "true" else "false").toList (.boolean b)
  | number (w : Number.Written) : IsText w.chars w.draft
  | string (b : Quoted.Body) : IsText b.quoted b.draft
  | array (gap : Spacing) (items : List Item) (h : ∀ i ∈ items, IsText i.text i.draft) :
      IsText (arrayChars gap items) (.array (items.map (·.draft)) .closed)
  | object (gap : Spacing) (members : List Member)
      (h : ∀ m ∈ members, IsText m.value.text m.value.draft) :
      IsText (objectChars gap members) (.object (members.map (·.draft)) .closed)

variable {cs rest text : List Char} {c bracket : Char} {d : Draft} {fuel : Nat}

theorem skipSpace_append (sp : Spacing) (cs : List Char) :
    skipSpace (sp.chars ++ cs) = skipSpace cs :=
  List.dropWhile_append_of_pos sp.blank

theorem skipSpace_cons (h : isSpace c = false) (cs : List Char) :
    skipSpace (c :: cs) = c :: cs := by
  rw [skipSpace, List.dropWhile_cons, if_neg (Bool.eq_false_iff.mp h)]

theorem exists_spacing (cs : List Char) : ∃ sp : Spacing, cs = sp.chars ++ skipSpace cs :=
  ⟨⟨cs.takeWhile isSpace, List.all_eq_true.mp List.all_takeWhile⟩,
    List.takeWhile_append_dropWhile.symm⟩

/-- Two stretches of white space are one. -/
def Spacing.append (sp₁ sp₂ : Spacing) : Spacing where
  chars := sp₁.chars ++ sp₂.chars
  blank := by
    intro c hc
    rcases List.mem_append.mp hc with h | h
    · exact sp₁.blank c h
    · exact sp₂.blank c h

/-- The first character of a value. -/
def opens (c : Char) : Bool :=
  c == 'n' || c == 't' || c == 'f' || c == '\x22' || c == '[' || c == '\x7b' || c == '-' ||
    c.isDigit

theorem isSpace_eq_false_of_isDigit (h : c.isDigit = true) : isSpace c = false := by
  rw [Bool.eq_false_iff]
  intro hspace
  simp only [isSpace, Bool.or_eq_true, beq_iff_eq] at hspace
  rcases hspace with ((rfl | rfl) | rfl) | rfl <;> cases h

/-- A value begins neither with white space nor with the bracket that could stand in its place. -/
theorem opens_marks (h : opens c = true) : isSpace c = false ∧ c ≠ ']' := by
  simp only [opens, Bool.or_eq_true, beq_iff_eq] at h
  rcases h with ((((((rfl | rfl) | rfl) | rfl) | rfl) | rfl) | rfl) | h
  case inr =>
    refine ⟨isSpace_eq_false_of_isDigit h, ?_⟩
    rintro rfl
    cases h
  all_goals exact ⟨rfl, by decide⟩

theorem IsText.exists_cons (h : IsText text d) : ∃ c cs, text = c :: cs ∧ opens c = true := by
  cases h with
  | boolean b => cases b <;> exact ⟨_, _, rfl, rfl⟩
  | number w =>
    unfold Number.Written.chars
    split
    · exact ⟨_, _, rfl, rfl⟩
    · have hdigit : w.whole.first.isDigit = true := w.whole.isDigit _ List.mem_cons_self
      exact ⟨_, _, rfl, by rw [opens, hdigit, Bool.or_true]⟩
  | _ => exact ⟨_, _, rfl, rfl⟩

namespace Draft

theorem next_close (h : isSpace bracket = false) (first : Bool) (sp : Spacing) (rest : List Char) :
    next bracket first (sp.chars ++ bracket :: rest) = .tail .closed (some rest) := by
  rw [next, skipSpace_append, skipSpace_cons h]
  exact if_pos rfl

/-- The first mark of an element leads to it, with a comma before it or without one. -/
theorem next_remaining (hspace : isSpace c = false) (hne : c ≠ bracket) (hcomma : ',' ≠ bracket)
    (first : Bool) (sp before : Spacing) (cs : List Char) (texts : List (List Char))
    (rest : List Char) :
    next bracket first (remaining bracket first sp ((before.chars ++ c :: cs) :: texts) ++ rest) =
      .more (c :: (cs ++ (continued bracket texts ++ rest))) := by
  cases first with
  | true =>
    simp only [remaining, listed, List.append_assoc, List.cons_append]
    rw [next, skipSpace_append, skipSpace_cons hspace]
    exact (if_neg hne).trans (if_pos rfl)
  | false =>
    simp only [remaining, continued, List.append_assoc, List.cons_append]
    rw [next, skipSpace_append, skipSpace_cons rfl]
    dsimp only
    rw [if_neg hcomma, if_neg Bool.false_ne_true, if_pos rfl, skipSpace_append,
      skipSpace_cons hspace]
    exact if_neg hne

theorem afterColon_append (sp : Spacing) (cs : List Char) :
    afterColon (sp.chars ++ ':' :: cs) = .ok cs := by
  rw [afterColon, skipSpace_append, skipSpace_cons rfl]
  rfl

theorem value_space (fuel : Nat) (sp : Spacing) (cs : List Char) :
    value fuel (sp.chars ++ cs) = value fuel cs := by
  cases fuel with
  | zero => rfl
  | succ fuel => rw [value, value, skipSpace_append]

theorem ofNumber_append (w : Number.Written) (h : w.EndsBefore rest) :
    ofNumber (w.chars ++ rest) = (w.draft, some rest) := by
  have hvalue : (Number.read (w.chars ++ rest)).map (·.1) = w.value := by
    rw [Number.read_append w h]
    cases w.value <;> rfl
  rw [ofNumber, Number.skip_append w h, hvalue]
  rfl

theorem ofQuoted_append (b : Quoted.Body) (rest : List Char) :
    ofQuoted (b.chars ++ '\x22' :: rest) = (b.draft, some rest) := by
  rw [ofQuoted, Quoted.skip_body b.isBody, b.read_append]
  rfl

theorem value_number (h : c = '-' ∨ c.isDigit = true) (fuel : Nat) (cs : List Char) :
    value (fuel + 1) (c :: cs) = ofNumber (c :: cs) := by
  have hspace : isSpace c = false := by
    rcases h with rfl | h
    · rfl
    · exact isSpace_eq_false_of_isDigit h
  have hcond : (c = '-' || c.isDigit) = true := by simpa using h
  rw [value, skipSpace_cons hspace]
  split
  case h_8 heq =>
    cases heq
    exact if_pos hcond
  all_goals next heq => cases heq <;> simp at h

theorem value_word (b : Bool) (fuel : Nat) (rest : List Char) :
    value (fuel + 1) ((if b then "true" else "false").toList ++ rest) =
      (.boolean b, some rest) := by
  cases b <;> simp [value, skipSpace, isSpace, word]

/-- A text is read as the draft whatever follows it, if a number does not go on there. Two units of
fuel for each character are enough: one for a value, one for its place in a list. -/
def ReadsAs (text : List Char) (d : Draft) : Prop :=
  ∀ fuel rest, 2 * text.length + 1 ≤ fuel → Number.StartsWithNone Number.goesOn rest →
    value fuel (text ++ rest) = (d, some rest)

theorem startsWithNone_spacing (sp : Spacing) (h : Number.StartsWithNone Number.goesOn rest) :
    Number.StartsWithNone Number.goesOn (sp.chars ++ rest) := by
  cases hsp : sp.chars with
  | nil => exact h
  | cons c cs =>
    refine .cons ?_
    have hspace : isSpace c = true := sp.blank c (by rw [hsp]; exact List.mem_cons_self)
    simp only [isSpace, Bool.or_eq_true, beq_iff_eq] at hspace
    rcases hspace with ((rfl | rfl) | rfl) | rfl <;> rfl

theorem startsWithNone_remaining (sp : Spacing) (hbracket : Number.goesOn bracket = false)
    (texts : List (List Char)) (rest : List Char) :
    Number.StartsWithNone Number.goesOn (remaining bracket false sp texts ++ rest) := by
  rw [remaining, List.append_assoc]
  apply startsWithNone_spacing
  cases texts with
  | nil => exact .cons hbracket
  | cons text texts => exact .cons rfl

theorem length_item (i : Item) :
    i.chars.length = i.before.chars.length + (i.text.length + i.after.chars.length) := by
  simp only [Item.chars, List.length_append]

theorem length_member (m : Member) :
    m.chars.length = m.before.chars.length + (m.name.chars.length + 2 +
      (m.between.chars.length + (m.value.chars.length + 1))) := by
  simp only [Member.chars, Quoted.Body.quoted, List.length_append, List.length_cons,
    List.length_nil]

theorem remaining_nil (bracket : Char) (first : Bool) (sp : Spacing) (rest : List Char) :
    remaining bracket first sp [] ++ rest = sp.chars ++ bracket :: rest := by
  cases first <;> simp only [remaining, listed, continued, List.append_assoc, List.cons_append,
    List.nil_append]

theorem length_continued_pos (bracket : Char) (texts : List (List Char)) :
    0 < (continued bracket texts).length := by
  cases texts <;> exact Nat.succ_pos _

theorem length_remaining_pos (bracket : Char) (first : Bool) (sp : Spacing)
    (texts : List (List Char)) : 0 < (remaining bracket first sp texts).length := by
  cases first with
  | false =>
    have hpos := length_continued_pos bracket texts
    rw [remaining, List.length_append]
    omega
  | true =>
    cases texts with
    | nil =>
      rw [remaining, listed, List.length_append, List.length_singleton]
      omega
    | cons text texts =>
      have hpos := length_continued_pos bracket texts
      rw [remaining, listed, List.length_append]
      omega

theorem length_remaining_cons (bracket : Char) (first : Bool) (sp after : Spacing)
    (text : List Char) (texts : List (List Char)) :
    text.length + (remaining bracket false after texts).length ≤
      (remaining bracket first sp (text :: texts)).length + after.chars.length := by
  cases first <;>
    simp only [remaining, listed, continued, List.length_append, List.length_cons] <;> omega

/-- The items that are left are read to the end of the array. -/
theorem items_remaining {its : List Item}
    (h : ∀ i ∈ its, IsText i.text i.draft ∧ ReadsAs i.text i.draft) (first : Bool) (sp : Spacing)
    (rest : List Char) (hfuel : 2 * (remaining ']' first sp (its.map (·.chars))).length ≤ fuel) :
    items fuel first (remaining ']' first sp (its.map (·.chars)) ++ rest) =
      (its.map (·.draft), .closed, some rest) := by
  have hpos := length_remaining_pos ']' first sp (its.map (·.chars))
  obtain ⟨fuel, rfl⟩ := Nat.exists_eq_add_of_le' (show 1 ≤ fuel by omega)
  -- The white space in front of the next mark is what the item before it left.
  induction its generalizing first sp fuel with
  | nil =>
    rw [List.map_nil, remaining_nil, items, next_close rfl]
    rfl
  | cons i its ih =>
    obtain ⟨⟨htext, hreads⟩, htail⟩ := List.forall_mem_cons.mp h
    obtain ⟨c, cs, hcons, hopens⟩ := htext.exists_cons
    obtain ⟨hspace, hne⟩ := opens_marks hopens
    let left := remaining ']' false i.after (its.map (·.chars))
    have hnext : next ']' first (remaining ']' first sp ((i :: its).map (·.chars)) ++ rest) =
        .more (i.text ++ (left ++ rest)) := by
      rw [List.map_cons, Item.chars, hcons, List.cons_append,
        next_remaining hspace hne (by decide)]
      simp only [left, remaining, List.cons_append, List.append_assoc]
    have hleft : 0 < left.length := length_remaining_pos ']' false i.after _
    have hlength : i.chars.length + left.length ≤
        (remaining ']' first sp ((i :: its).map (·.chars))).length + i.after.chars.length :=
      length_remaining_cons ']' first sp i.after i.chars _
    have htextpos : 0 < i.text.length := by
      rw [hcons]
      exact Nat.succ_pos _
    rw [length_item] at hlength
    obtain ⟨fuel, rfl⟩ := Nat.exists_eq_add_of_le' (show 1 ≤ fuel by omega)
    have hrest : items (fuel + 1) false (left ++ rest) =
        (its.map (·.draft), .closed, some rest) := by
      refine ih htail false i.after hleft fuel ?_
      change 2 * left.length ≤ fuel + 1
      omega
    rw [items, hnext]
    dsimp only
    rw [hreads (fuel + 1) (left ++ rest) (by omega)
      (startsWithNone_remaining i.after rfl _ rest)]
    dsimp only
    rw [hrest]
    rfl

theorem value_array (fuel : Nat) (cs : List Char) :
    value (fuel + 1) ('[' :: cs) =
      (.array (items fuel true cs).1 (items fuel true cs).2.1, (items fuel true cs).2.2) := rfl

theorem value_object (fuel : Nat) (cs : List Char) :
    value (fuel + 1) ('\x7b' :: cs) =
      (.object (members fuel true cs).1 (members fuel true cs).2.1, (members fuel true cs).2.2) :=
  rfl

theorem value_quoted (b : Quoted.Body) (fuel : Nat) (rest : List Char) :
    value (fuel + 1) (b.quoted ++ rest) = (b.draft, some rest) := by
  rw [Quoted.Body.quoted, List.cons_append, value, skipSpace_cons rfl, List.append_assoc]
  exact ofQuoted_append b rest

/-- The members that are left are read to the end of the object. -/
theorem members_remaining {ms : List Member} (h : ∀ m ∈ ms, ReadsAs m.value.text m.value.draft)
    (first : Bool) (sp : Spacing) (rest : List Char)
    (hfuel : 2 * (remaining '\x7d' first sp (ms.map (·.chars))).length ≤ fuel) :
    members fuel first (remaining '\x7d' first sp (ms.map (·.chars)) ++ rest) =
      (ms.map (·.draft), .closed, some rest) := by
  have hpos := length_remaining_pos '\x7d' first sp (ms.map (·.chars))
  obtain ⟨fuel, rfl⟩ := Nat.exists_eq_add_of_le' (show 1 ≤ fuel by omega)
  -- As for items, the white space in front changes from one member to the next.
  induction ms generalizing first sp fuel with
  | nil =>
    rw [List.map_nil, remaining_nil, members, next_close rfl]
    rfl
  | cons m ms ih =>
    obtain ⟨hreads, htail⟩ := List.forall_mem_cons.mp h
    let left := remaining '\x7d' false m.value.after (ms.map (·.chars))
    have hnext : next '\x7d' first (remaining '\x7d' first sp ((m :: ms).map (·.chars)) ++ rest) =
        .more (m.name.quoted ++ (m.between.chars ++
          ':' :: (m.value.before.chars ++ (m.value.text ++ (left ++ rest))))) := by
      have hquote : '\x22' ≠ '\x7d' := by decide
      rw [List.map_cons, Member.chars, Quoted.Body.quoted, List.cons_append,
        next_remaining rfl hquote (by decide)]
      simp only [left, remaining, Item.chars, List.cons_append, List.append_assoc]
    have hleft : 0 < left.length := length_remaining_pos '\x7d' false m.value.after _
    have hlength : m.chars.length + left.length ≤
        (remaining '\x7d' first sp ((m :: ms).map (·.chars))).length +
          m.value.after.chars.length :=
      length_remaining_cons '\x7d' first sp m.value.after m.chars _
    rw [length_member, length_item] at hlength
    obtain ⟨fuel, rfl⟩ := Nat.exists_eq_add_of_le' (show 1 ≤ fuel by omega)
    have hrest : members (fuel + 1) false (left ++ rest) =
        (ms.map (·.draft), .closed, some rest) := by
      refine ih htail false m.value.after hleft fuel ?_
      change 2 * left.length ≤ fuel + 1
      omega
    rw [members, hnext]
    dsimp only
    rw [value_quoted]
    dsimp only [Quoted.Body.draft]
    rw [afterColon_append]
    dsimp only
    rw [value_space, hreads (fuel + 1) (left ++ rest) (by omega)
      (startsWithNone_remaining m.value.after rfl _ rest)]
    dsimp only
    rw [hrest]
    rfl

/-- Every text of a value is read as its draft, and to its end. -/
theorem readsAs (h : IsText text d) : ReadsAs text d := by
  -- By the grammar: what stands in a list is read as its draft by hypothesis.
  induction h with
  | null =>
    intro fuel rest hfuel _
    obtain ⟨fuel, rfl⟩ := Nat.exists_eq_add_of_le' (show 1 ≤ fuel by omega)
    rfl
  | boolean b =>
    intro fuel rest hfuel _
    obtain ⟨fuel, rfl⟩ := Nat.exists_eq_add_of_le' (show 1 ≤ fuel by omega)
    exact value_word b fuel rest
  | number w =>
    intro fuel rest hfuel hends
    obtain ⟨fuel, rfl⟩ := Nat.exists_eq_add_of_le' (show 1 ≤ fuel by omega)
    obtain ⟨c, cs, hcons, hc⟩ : ∃ c cs, w.chars = c :: cs ∧ (c = '-' ∨ c.isDigit = true) := by
      unfold Number.Written.chars
      split
      · exact ⟨_, _, rfl, .inl rfl⟩
      · exact ⟨_, _, rfl, .inr (w.whole.isDigit _ List.mem_cons_self)⟩
    rw [← ofNumber_append w (Number.endsBefore_of_goesOn w hends), hcons, List.cons_append]
    exact value_number hc fuel _
  | string b =>
    intro fuel rest hfuel _
    obtain ⟨fuel, rfl⟩ := Nat.exists_eq_add_of_le' (show 1 ≤ fuel by omega)
    exact value_quoted b fuel rest
  | array gap its h ih =>
    intro fuel rest hfuel _
    obtain ⟨fuel, rfl⟩ := Nat.exists_eq_add_of_le' (show 1 ≤ fuel by omega)
    rw [arrayChars, List.length_cons] at hfuel
    have hitems := items_remaining (fun i hi => ⟨h i hi, ih i hi⟩) true gap rest
      (show 2 * (listed ']' gap (its.map (·.chars))).length ≤ fuel by omega)
    rw [remaining] at hitems
    rw [arrayChars, List.cons_append, value_array, hitems]
  | object gap ms h ih =>
    intro fuel rest hfuel _
    obtain ⟨fuel, rfl⟩ := Nat.exists_eq_add_of_le' (show 1 ≤ fuel by omega)
    rw [objectChars, List.length_cons] at hfuel
    have hmembers := members_remaining ih true gap rest
      (show 2 * (listed '\x7d' gap (ms.map (·.chars))).length ≤ fuel by omega)
    rw [remaining] at hmembers
    rw [objectChars, List.cons_append, value_object, hmembers]

end Draft

end SourceDeps.Json

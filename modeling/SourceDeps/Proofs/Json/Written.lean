import SourceDeps.Json.Value
import SourceDeps.Proofs.Json.Decode
import SourceDeps.Proofs.Json.Integer

namespace SourceDeps

namespace Json

/-- Values whose numbers are whole, not below zero, and fit in 64 bits. -/
inductive Fits : Json → Prop
  | null : Fits .null
  | boolean (b : Bool) : Fits (.boolean b)
  | integer (n : Nat) (h : n < Number.wordCount) : Fits (.integer n)
  | string (s : String) : Fits (.string s)
  | array (items : List Json) (h : ∀ j ∈ items, Fits j) : Fits (.array items)
  | object (members : List (String × Json)) (h : ∀ m ∈ members, Fits m.2) : Fits (.object members)

mutual

/-- The draft as which a value is read back. -/
def draft : Json → Draft
  | null => .null
  | boolean b => .boolean b
  | integer n => .number (.ok (.integer n)) none
  | string s => .string (.ok s) none
  | array items => .array (itemDrafts items) .closed
  | object members => .object (memberDrafts members) .closed

def itemDrafts : List Json → List Draft
  | [] => []
  | j :: items => j.draft :: itemDrafts items

def memberDrafts : List (String × Json) → List (Draft × Draft)
  | [] => []
  | (name, j) :: members => (.string (.ok name) none, j.draft) :: memberDrafts members

end

theorem itemDrafts_eq (items : List Json) : itemDrafts items = items.map draft := by
  induction items with
  | nil => rfl
  | cons j items ih => rw [itemDrafts, ih, List.map_cons]

theorem memberDrafts_eq (members : List (String × Json)) :
    memberDrafts members = members.map fun m => (.string (.ok m.1) none, m.2.draft) := by
  induction members with
  | nil => rfl
  | cons m members ih => rw [memberDrafts, ih, List.map_cons]

/-- No white space. -/
def Spacing.none : Spacing where
  chars := []
  blank := by
    intro c hc
    cases hc

/-- A value without white space around it. -/
def asItem (j : Json) : Item := ⟨.none, j.chars, j.draft, .none⟩

/-- A member without white space in it. -/
def asMember (m : String × Json) : Member :=
  ⟨.none, .ofString m.1, .none, m.2.asItem⟩

theorem chars_asItem (j : Json) : j.asItem.chars = j.chars := List.append_nil j.chars

theorem chars_asMember (m : String × Json) :
    (asMember m).chars = Quoted.write m.1 ++ ':' :: m.2.chars := by
  rw [Member.chars, asMember, chars_asItem, Quoted.Body.quoted_ofString]
  rfl

theorem draft_asMember (m : String × Json) :
    (asMember m).draft = (.string (.ok m.1) none, m.2.draft) := by
  rw [Member.draft, asMember, Quoted.Body.draft, Quoted.Body.value_ofString]
  rfl

theorem itemChars_eq (items : List Json) :
    itemChars items = listed ']' .none ((items.map asItem).map (·.chars)) := by
  induction items with
  | nil => rfl
  | cons j items ih =>
    rw [List.map_cons, List.map_cons, listed, chars_asItem]
    cases items with
    | nil => rfl
    | cons k items =>
      rw [itemChars, ih]
      · rfl
      · exact List.cons_ne_nil k items

theorem memberChars_eq (members : List (String × Json)) :
    memberChars members = listed '\x7d' .none ((members.map asMember).map (·.chars)) := by
  induction members with
  | nil => rfl
  | cons m members ih =>
    rw [List.map_cons, List.map_cons, listed, chars_asMember]
    cases members with
    | nil => rfl
    | cons n members =>
      rw [memberChars, ih]
      · rfl
      · exact List.cons_ne_nil n members

/-- A value is written as a text of its draft. -/
theorem Fits.isText {j : Json} (h : j.Fits) : IsText j.chars j.draft := by
  induction h with
  | null => exact .null
  | boolean b => exact .boolean b
  | integer n h =>
    have hnumber := IsText.number (.ofNat n)
    rwa [Number.Written.chars_ofNat, Number.Written.draft, Number.Written.value_ofNat h] at hnumber
  | string s =>
    have hstring := IsText.string (.ofString s)
    rwa [Quoted.Body.draft, Quoted.Body.value_ofString] at hstring
  | array items h ih =>
    have htext := IsText.array .none (items.map asItem) (List.forall_mem_map.mpr ih)
    rw [chars, draft, itemChars_eq, itemDrafts_eq]
    rwa [List.map_map] at htext
  | object members h ih =>
    have htext := IsText.object .none (members.map asMember) (List.forall_mem_map.mpr ih)
    rw [chars, draft, memberChars_eq, memberDrafts_eq]
    rw [List.map_map] at htext
    have hdrafts : Member.draft ∘ asMember = fun m => (.string (.ok m.1) none, m.2.draft) :=
      funext draft_asMember
    rwa [← hdrafts]

/-- A value that is written is decoded as its draft is read. -/
theorem decode_written {α : Type} {read : Draft → Except Fault α} {j : Json} (h : j.Fits) :
    decode read j.text = read j.draft := by
  have hdecode : decode read (String.ofList (j.chars ++ [])) = read j.draft :=
    decode_text h.isText .none .none
  rwa [List.append_nil] at hdecode

end Json

end SourceDeps

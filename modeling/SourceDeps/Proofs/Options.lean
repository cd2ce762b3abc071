import SourceDeps.Options.Json
import SourceDeps.Proofs.Json.Decode
import SourceDeps.Proofs.Json.Record
import SourceDeps.Proofs.Json.Written

namespace SourceDeps

open SourceDeps.Json

namespace Json.Draft

/-- Values that are closed, hold no number or string that cannot be read, and have at most so many
arrays and objects in each other. -/
inductive Within : Nat → Draft → Prop
  | null (n : Nat) : Within n .null
  | boolean (n : Nat) (b : Bool) : Within n (.boolean b)
  | number (n : Nat) (v : Number) (skip : Option Stop) : Within n (.number (.ok v) skip)
  | string (n : Nat) (s : String) (skip : Option Stop) : Within n (.string (.ok s) skip)
  | array (n : Nat) (items : List Draft) (h : ∀ d ∈ items, Within n d) :
      Within (n + 1) (.array items .closed)
  | object (n : Nat) (members : List (Draft × Draft))
      (hnames : ∀ m ∈ members, ∃ s skip, m.1 = .string (.ok s) skip)
      (h : ∀ m ∈ members, Within n m.2) : Within (n + 1) (.object members .closed)

theorem tail_stop?_eq_none_iff {tail : Tail} : tail.stop? = none ↔ tail = .closed := by
  cases tail <;> simp [Tail.stop?]

theorem itemsFault?_eq_none_iff {depth : Nat} {tail : Tail} {items : List Draft} :
    itemsFault? depth tail items = none ↔
      tail = .closed ∧ ∀ d ∈ items, d.fault? depth = none := by
  induction items with
  | nil =>
    rw [itemsFault?, tail_stop?_eq_none_iff]
    exact (and_iff_left (List.forall_mem_nil _)).symm
  | cons d items ih =>
    rw [itemsFault?, Option.or_eq_none_iff, ih, List.forall_mem_cons]
    exact and_left_comm

theorem membersFault?_eq_none_iff {depth : Nat} {tail : Tail} {members : List (Draft × Draft)} :
    membersFault? depth tail members = none ↔ tail = .closed ∧
      (∀ m ∈ members, ∃ s skip, m.1 = .string (.ok s) skip) ∧
        ∀ m ∈ members, m.2.fault? depth = none := by
  induction members with
  | nil =>
    rw [membersFault?, tail_stop?_eq_none_iff]
    exact (and_iff_left ⟨List.forall_mem_nil _, List.forall_mem_nil _⟩).symm
  | cons m members ih =>
    obtain ⟨name, d⟩ := m
    rw [List.forall_mem_cons, List.forall_mem_cons]
    unfold membersFault?
    split
    · next s skip =>
      rw [Option.or_eq_none_iff, ih]
      constructor
      · rintro ⟨hd, htail, hnames, hmembers⟩
        exact ⟨htail, ⟨⟨s, skip, rfl⟩, hnames⟩, hd, hmembers⟩
      · rintro ⟨htail, ⟨-, hnames⟩, hd, hmembers⟩
        exact ⟨hd, htail, hnames, hmembers⟩
    · refine iff_of_false (Option.some_ne_none _) ?_
      rintro ⟨-, ⟨⟨s, skip, hname⟩, -⟩, -⟩
      cases hname
    · next hstring _ =>
      refine iff_of_false (Option.some_ne_none _) ?_
      rintro ⟨-, ⟨⟨s, skip, hname⟩, -⟩, -⟩
      exact hstring s skip hname

theorem Within.members {n : Nat} {members : List (Draft × Draft)} {tail : Tail}
    (h : (Draft.object members tail).Within (n + 1)) :
    ∀ m ∈ members, (∃ s skip, m.1 = .string (.ok s) skip) ∧ m.2.Within n := by
  cases h with
  | object _ _ hnames h => exact fun m hm => ⟨hnames m hm, h m hm⟩

/-- A value within the limits can be kept. -/
theorem Within.fault? {n depth : Nat} {d : Draft} (h : d.Within n) (hdepth : depth + n < maxDepth) :
    d.fault? depth = none := by
  induction h generalizing depth with
  | null => rfl
  | boolean => rfl
  | number => rfl
  | string => rfl
  | array n items h ih =>
    rw [Draft.fault?, if_neg (by omega)]
    exact itemsFault?_eq_none_iff.mpr ⟨rfl, fun d hd => ih d hd (by omega)⟩
  | object n members hnames h ih =>
    rw [Draft.fault?, if_neg (by omega)]
    exact membersFault?_eq_none_iff.mpr ⟨rfl, hnames, fun m hm => ih m hm (by omega)⟩

theorem within_of_fault? {n depth : Nat} {d : Draft} (h : d.fault? depth = none)
    (hdepth : depth + n + 1 = maxDepth) : d.Within n := by
  -- Each array and each object uses up one level, so the levels that are left carry the induction.
  induction n using Nat.strongRecOn generalizing depth d with
  | ind n ih =>
    cases d with
    | null => exact .null n
    | boolean b => exact .boolean n b
    | number v skip =>
      cases v with
      | error why => cases h
      | ok v => exact .number n v skip
    | string v skip =>
      cases v with
      | error why => cases h
      | ok s => exact .string n s skip
    | nothing why => cases h
    | array items tail =>
      rw [Draft.fault?] at h
      split at h
      · cases h
      · next hlevel =>
        obtain ⟨n, rfl⟩ := Nat.exists_eq_add_of_le' (show 1 ≤ n by omega)
        obtain ⟨rfl, hitems⟩ := itemsFault?_eq_none_iff.mp h
        exact .array n items fun d hd => ih n (by omega) (hitems d hd) (by omega)
    | object members tail =>
      rw [Draft.fault?] at h
      split at h
      · cases h
      · next hlevel =>
        obtain ⟨n, rfl⟩ := Nat.exists_eq_add_of_le' (show 1 ≤ n by omega)
        obtain ⟨rfl, hnames, hmembers⟩ := membersFault?_eq_none_iff.mp h
        exact .object n members hnames fun m hm => ih n (by omega) (hmembers m hm) (by omega)

/-- The limits are those of values that are kept, no more and no less. -/
theorem fault?_eq_none_iff {n depth : Nat} {d : Draft} (hdepth : depth + n + 1 = maxDepth) :
    d.fault? depth = none ↔ d.Within n :=
  ⟨fun h => within_of_fault? h hdepth, fun h => h.fault? (by omega)⟩

end Json.Draft

namespace FileOptions

/-- A member that is kept as it is: it is not the switch, and nothing is wrong in its value. -/
def IsKept (m : Draft × Draft) : Prop :=
  ∃ s skip, m.1 = .string (.ok s) skip ∧ s ≠ switchName ∧ m.2.fault? 1 = none

variable {front back : List (Draft × Draft)} {tail : Tail} {switch : Option Bool}

theorem split_append (h : ∀ m ∈ front, IsKept m) (back : List (Draft × Draft)) :
    split tail switch (front ++ back) =
      (split tail switch back).map fun p => (p.1, front ++ p.2) := by
  induction front with
  | nil =>
    rw [List.nil_append]
    cases split tail switch back <;> rfl
  | cons m front ih =>
    obtain ⟨name, d⟩ := m
    obtain ⟨⟨s, skip, rfl, hs, hd⟩, hfront⟩ := List.forall_mem_cons.mp h
    rw [List.cons_append, split]
    dsimp only
    rw [if_neg hs, hd, ih hfront]
    cases split tail switch back <;> rfl

theorem split_kept (h : ∀ m ∈ front, IsKept m) (switch : Option Bool) :
    split .closed switch front = .ok (switch, front) := by
  have hnil : split .closed switch [] = .ok (switch, []) := rfl
  have happend : split .closed switch (front ++ []) = .ok (switch, front ++ []) := by
    rw [split_append h, hnil]
    rfl
  rwa [List.append_nil] at happend

theorem split_switch (b : Bool) (skip : Option Stop) (members : List (Draft × Draft)) :
    split tail none ((.string (.ok switchName) skip, .boolean b) :: members) =
      split tail (some b) members := by
  rw [split]
  dsimp only
  rw [if_pos rfl]
  rfl

end FileOptions

theorem Dialect.reading_keeps : Keeps Dialect.reading := readString_keeps.map ofTag

theorem AmdOptions.fields_keep : ∀ f ∈ AmdOptions.record.fields, f.Keeps := by
  simp only [record, List.forall_mem_cons, List.not_mem_nil, false_implies, implies_true, and_true]
  exact Field.of_keeps readBoolean_keeps _ _

theorem Es6Options.fields_keep : ∀ f ∈ Es6Options.record.fields, f.Keeps := by
  simp only [record, List.forall_mem_cons, List.not_mem_nil, false_implies, implies_true, and_true]
  exact ⟨Field.of_keeps readBoolean_keeps _ _, Field.of_keeps readBoolean_keeps _ _⟩

theorem SassOptions.fields_keep : ∀ f ∈ SassOptions.record.fields, f.Keeps := by
  simp only [record, List.forall_mem_cons, List.not_mem_nil, false_implies, implies_true, and_true]
  exact Field.of_keeps (readOptional_keeps (readNamed_keeps Surface.names)) _ _

theorem ExtractOptions.fields_keep : ∀ f ∈ ExtractOptions.record.fields, f.Keeps := by
  simp only [record, List.forall_mem_cons, List.not_mem_nil, false_implies, implies_true, and_true]
  exact ⟨Field.of_keeps (readOptional_keeps Dialect.reading_keeps) _ _,
    Field.of_keeps (Record.read_keeps AmdOptions.fields_keep) _ _,
    Field.of_keeps (Record.read_keeps Es6Options.fields_keep) _ _,
    Field.of_keeps (Record.read_keeps SassOptions.fields_keep) _ _⟩

namespace FileOptions

theorem reading_kept {members : List (Draft × Draft)} {v : ExtractOptions}
    (h : ∀ m ∈ members, IsKept m)
    (hread : ExtractOptions.record.ofMembers .text .closed [] {} members = .ok v) :
    reading (.object members .closed) = .ok { includeCore := true, extract := v } := by
  have hkept := Record.ofMembers_keeps ExtractOptions.fields_keep hread
  rw [reading, split_kept h]
  exact bind_eq_ok.mpr ⟨_, rfl, bind_eq_ok.mpr ⟨v, hkept, rfl⟩⟩

theorem reading_switch {v : ExtractOptions} (b : Bool) (skip : Option Stop)
    (h : ∀ m ∈ front ++ back, IsKept m)
    (hread : ExtractOptions.record.ofMembers .text .closed [] {} (front ++ back) = .ok v) :
    reading (.object (front ++ (.string (.ok switchName) skip, .boolean b) :: back) .closed) =
      .ok { includeCore := b, extract := v } := by
  obtain ⟨hfront, hback⟩ := List.forall_mem_append.mp h
  have hkept := Record.ofMembers_keeps ExtractOptions.fields_keep hread
  rw [reading, split_append hfront, split_switch, split_kept hback]
  exact bind_eq_ok.mpr ⟨_, rfl, bind_eq_ok.mpr ⟨v, hkept, rfl⟩⟩

end FileOptions

/-- The text of an object with white space around it. -/
def Json.objectText (before gap : Spacing) (members : List Member) (after : Spacing) : String :=
  String.ofList (before.chars ++ (objectChars gap members ++ after.chars))

namespace FileOptions

/-- Only object texts are accepted as options for files. -/
theorem exists_objectText {s : String} {o : FileOptions} (h : ofJson s = .ok o) :
    ∃ before gap members after, s = objectText before gap members after ∧
      ∀ m ∈ members, IsText m.value.text m.value.draft := by
  obtain ⟨before, after, text, d, rfl, htext, hread⟩ := exists_text h
  cases htext with
  | object gap members hmembers => exact ⟨before, gap, members, after, rfl, hmembers⟩
  | _ => cases hread

/-- The switch as a member, in any spelling of its name. -/
def IsSwitch (b : Bool) (m : Member) : Prop :=
  m.name.value = .ok switchName ∧ m.value.draft = .boolean b ∧ IsText m.value.text m.value.draft

/-- The members of an object within the limits are kept, if none is the switch. -/
theorem isKept_of_within {members : List Member}
    (hwithin : (Draft.object (members.map (·.draft)) .closed).Within (Draft.maxDepth - 1))
    (hswitch : ∀ m ∈ members, m.name.value ≠ .ok switchName) :
    ∀ m ∈ members.map (·.draft), IsKept m := by
  rw [List.forall_mem_map]
  intro m hm
  obtain ⟨⟨s, skip, hname⟩, hvalue⟩ := hwithin.members (n := 126) m.draft (List.mem_map_of_mem hm)
  refine ⟨s, skip, hname, ?_, (Draft.fault?_eq_none_iff rfl).mpr hvalue⟩
  rintro rfl
  have hread : m.name.value = .ok switchName := (Draft.string.inj hname).1
  exact hswitch m hm hread

/-- The options for files are those of an extraction and a switch. What an object text without the
switch gives for an extraction it gives for files, and the switch can stand anywhere among the
members, in any spelling. -/
theorem ofJson_of_extract {before gap after : Spacing} {members : List Member} {v : ExtractOptions}
    (htext : ∀ m ∈ members, IsText m.value.text m.value.draft)
    (hwithin : (Draft.object (members.map (·.draft)) .closed).Within (Draft.maxDepth - 1))
    (hswitch : ∀ m ∈ members, m.name.value ≠ .ok switchName)
    (h : ExtractOptions.ofJson (objectText before gap members after) = .ok v) :
    ofJson (objectText before gap members after) = .ok { includeCore := true, extract := v } ∧
      ∀ (front back : List Member) (m : Member) (b : Bool), members = front ++ back →
        IsSwitch b m →
          ofJson (objectText before gap (front ++ m :: back) after) =
            .ok { includeCore := b, extract := v } := by
  have hread :
      ExtractOptions.record.ofMembers .text .closed [] {} (members.map (·.draft)) = .ok v := by
    rwa [ExtractOptions.ofJson, objectText, decode_text (.object gap members htext)] at h
  have hkept := isKept_of_within hwithin hswitch
  constructor
  · rw [ofJson, objectText, decode_text (.object gap members htext)]
    exact reading_kept hkept hread
  -- The object with the switch is a text as well, and its other members are the same.
  · rintro front back m b rfl ⟨hname, hvalue, hm⟩
    obtain ⟨hfront, hback⟩ := List.forall_mem_append.mp htext
    have hall : ∀ n ∈ front ++ m :: back, IsText n.value.text n.value.draft :=
      List.forall_mem_append.mpr ⟨hfront, List.forall_mem_cons.mpr ⟨hm, hback⟩⟩
    have hdraft : m.draft = (.string (.ok switchName) none, .boolean b) := by
      rw [Member.draft, Quoted.Body.draft, hname, hvalue]
    rw [List.map_append] at hkept hread
    rw [ofJson, objectText, decode_text (.object gap _ hall), List.map_append, List.map_cons,
      hdraft]
    exact reading_switch b none hkept hread

/-- Two members of an object with an unknown one in front. -/
def sampleMembers : List Member :=
  [asMember ("extra", .array [.null]), asMember ("type", .string "es6")]

theorem ofJson_of_extract_sample :
    ExtractOptions.ofJson "\x7b\"extra\":[null],\"type\":\"es6\"\x7d" =
        .ok { dialect := some .es6 } ∧
      ofJson "\x7b\"extra\":[null],\"type\":\"es6\"\x7d" =
        .ok { includeCore := true, extract := { dialect := some .es6 } } ∧
      ofJson "\x7b\"extra\":[null],\"includeCore\":false,\"type\":\"es6\"\x7d" =
        .ok { includeCore := false, extract := { dialect := some .es6 } } := by
  have hfits : (Json.array [.null]).Fits := .array _ (List.forall_mem_singleton.mpr .null)
  have htext : ∀ m ∈ sampleMembers, IsText m.value.text m.value.draft :=
    List.forall_mem_cons.mpr
      ⟨hfits.isText, List.forall_mem_singleton.mpr (Fits.string "es6").isText⟩
  have hdrafts : sampleMembers.map (·.draft) =
      [(.string (.ok "extra") none, .array [.null] .closed),
        (.string (.ok "type") none, .string (.ok "es6") none)] := by
    rw [sampleMembers, List.map_cons, List.map_singleton, draft_asMember, draft_asMember]
    rfl
  have hwithin :
      (Draft.object (sampleMembers.map (·.draft)) .closed).Within (Draft.maxDepth - 1) := by
    rw [hdrafts]
    refine .object 126 _ (List.forall_mem_cons.mpr ⟨⟨_, _, rfl⟩,
      List.forall_mem_singleton.mpr ⟨_, _, rfl⟩⟩) (List.forall_mem_cons.mpr ⟨?_,
        List.forall_mem_singleton.mpr (.string 126 "es6" none)⟩)
    exact .array 125 _ (List.forall_mem_singleton.mpr (.null 125))
  have hswitch : ∀ m ∈ sampleMembers, m.name.value ≠ .ok switchName := by
    refine List.forall_mem_cons.mpr ⟨?_, List.forall_mem_singleton.mpr ?_⟩ <;>
      rw [asMember, Quoted.Body.value_ofString] <;> decide
  have hextract : ExtractOptions.ofJson (objectText .none .none sampleMembers .none) =
      .ok { dialect := some .es6 } := by
    rw [ExtractOptions.ofJson, objectText, decode_text (.object .none _ htext), hdrafts]
    rfl
  obtain ⟨hdefault, hinserted⟩ := ofJson_of_extract htext hwithin hswitch hextract
  have hinsert := hinserted [asMember ("extra", .array [.null])] [asMember ("type", .string "es6")]
    (asMember (switchName, .boolean false)) false rfl
    ⟨Quoted.Body.value_ofString switchName, rfl, (Fits.boolean false).isText⟩
  exact ⟨hextract, hdefault, hinsert⟩

end FileOptions

end SourceDeps

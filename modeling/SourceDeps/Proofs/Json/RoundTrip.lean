import SourceDeps.Proofs.Options
import SourceDeps.Stylesheet.Json

namespace SourceDeps

open SourceDeps.Json

theorem AmdOptions.read_toJson (origin : Origin) (o : AmdOptions) :
    record.read origin o.toJson.draft = .ok o := by
  rfl

theorem Es6Options.read_toJson (origin : Origin) (o : Es6Options) :
    record.read origin o.toJson.draft = .ok o := by
  rfl

theorem SassOptions.read_toJson (origin : Origin) (o : SassOptions) :
    record.read origin o.toJson.draft = .ok o := by
  obtain ⟨_ | s⟩ := o
  · rfl
  · cases s <;> rfl

theorem Dialect.reading_tag (origin : Origin) (d : Dialect) (skip : Option Stop) :
    reading origin (.string (.ok d.tag) skip) = .ok d :=
  congrArg Except.ok d.ofTag_tag

/-- The blocks are read back behind a dialect or without one. -/
theorem ExtractOptions.ofMembers_blocks (origin : Origin) (o s : ExtractOptions)
    {seen : List String} (hseen : ∀ name ∈ seen, name = "type") :
    record.ofMembers origin .closed seen s (Json.memberDrafts
      [("amd", o.amd.toJson), ("es6", o.es6.toJson), ("sass", o.sass.toJson)]) =
        .ok { s with amd := o.amd, es6 := o.es6, sass := o.sass } := by
  have hfresh : ∀ name, name ≠ "type" → name ∉ seen := fun name h hname => h (hseen name hname)
  have hamd : "amd" ∉ seen := hfresh "amd" (by decide)
  have hes6 : "es6" ∉ "amd" :: seen :=
    List.not_mem_cons_of_ne_of_not_mem (by decide) (hfresh "es6" (by decide))
  have hsass : "sass" ∉ "es6" :: "amd" :: seen :=
    List.not_mem_cons_of_ne_of_not_mem (by decide)
      (List.not_mem_cons_of_ne_of_not_mem (by decide) (hfresh "sass" (by decide)))
  simp only [Json.memberDrafts]
  rw [Record.ofMembers_put rfl hamd (o.amd.read_toJson origin),
    Record.ofMembers_put rfl hes6 (o.es6.read_toJson origin),
    Record.ofMembers_put rfl hsass (o.sass.read_toJson origin)]
  rfl

theorem ExtractOptions.ofMembers_members (origin : Origin) (o : ExtractOptions) :
    record.ofMembers origin .closed [] {} (Json.memberDrafts o.members) = .ok o := by
  obtain ⟨_ | d, amd, es6, sass⟩ := o
  · exact ofMembers_blocks origin ⟨none, amd, es6, sass⟩ {} (by decide)
  · have hdialect : readOptional Dialect.reading origin (.string (.ok d.tag) none) =
        .ok (some d) :=
      congrArg (Except.map some) (d.reading_tag origin none)
    exact (Record.ofMembers_put rfl (by decide) hdialect none).trans
      (ofMembers_blocks origin ⟨some d, amd, es6, sass⟩ { dialect := some d } (by decide))

theorem ExtractOptions.read_toJson (origin : Origin) (o : ExtractOptions) :
    record.read origin o.toJson.draft = .ok o :=
  ofMembers_members origin o

theorem FileOptions.isKept_members (o : ExtractOptions) :
    ∀ m ∈ Json.memberDrafts o.members, IsKept m := by
  rw [Json.memberDrafts_eq, List.forall_mem_map, ExtractOptions.members, List.forall_mem_append,
    List.forall_mem_map]
  constructor
  · intro d _
    have hname : "type" ≠ switchName := by decide
    exact ⟨_, _, rfl, hname, rfl⟩
  · simp only [List.forall_mem_cons, List.not_mem_nil, false_implies, implies_true, and_true]
    refine ⟨⟨_, _, rfl, by decide, rfl⟩, ⟨_, _, rfl, by decide, rfl⟩, _, _, rfl, by decide, ?_⟩
    obtain ⟨_ | s⟩ := o.sass <;> rfl

theorem FileOptions.reading_toJson (o : FileOptions) : reading o.toJson.draft = .ok o := by
  have hsplit : split .closed none (Json.memberDrafts ((switchName, .boolean o.includeCore) ::
      o.extract.members)) = .ok (some o.includeCore, Json.memberDrafts o.extract.members) :=
    (split_switch o.includeCore none _).trans (split_kept (isKept_members o.extract) _)
  rw [FileOptions.toJson, Json.draft, reading, hsplit]
  exact bind_eq_ok.mpr ⟨_, rfl, bind_eq_ok.mpr ⟨_, o.extract.ofMembers_members .kept, rfl⟩⟩

theorem AmdOptions.fits_toJson (o : AmdOptions) : o.toJson.Fits :=
  .object _ (List.forall_mem_singleton.mpr (.boolean _))

theorem Es6Options.fits_toJson (o : Es6Options) : o.toJson.Fits :=
  .object _ (List.forall_mem_cons.mpr ⟨.boolean _, List.forall_mem_singleton.mpr (.boolean _)⟩)

theorem SassOptions.fits_toJson (o : SassOptions) : o.toJson.Fits :=
  .object _ (List.forall_mem_map.mpr fun s _ => .string s.name)

theorem ExtractOptions.members_fit (o : ExtractOptions) : ∀ m ∈ o.members, m.2.Fits :=
  List.forall_mem_append.mpr ⟨List.forall_mem_map.mpr fun d _ => .string d.tag,
    List.forall_mem_cons.mpr ⟨o.amd.fits_toJson, List.forall_mem_cons.mpr ⟨o.es6.fits_toJson,
      List.forall_mem_singleton.mpr o.sass.fits_toJson⟩⟩⟩

/-- Options of an extraction that are written are read back. -/
theorem ExtractOptions.ofJson_text (o : ExtractOptions) : ofJson o.toJson.text = .ok o :=
  (Json.decode_written (.object _ o.members_fit)).trans (o.read_toJson .text)

/-- Options for files that are written are read back. -/
theorem FileOptions.ofJson_text (o : FileOptions) : ofJson o.toJson.text = .ok o := by
  have hfits : o.toJson.Fits :=
    .object _ (List.forall_mem_cons.mpr ⟨.boolean _, o.extract.members_fit⟩)
  exact (Json.decode_written hfits).trans o.reading_toJson

namespace AtRule

theorem readString_string (origin : Origin) (s : String) :
    readString origin (Json.string s).draft = .ok s := rfl

theorem readNatural_integer (origin : Origin) (n : Nat) :
    readNatural origin (Json.integer n).draft = .ok n := by
  rw [Json.draft, readNatural, if_pos (Int.natCast_nonneg n), Int.toNat_natCast]

theorem readList_strings (origin : Origin) (ss : List String) :
    readList readString origin (Json.array (ss.map .string)).draft = .ok ss := by
  rw [Json.draft, Json.itemDrafts_eq, List.map_map]
  exact readItems_map fun s _ => rfl

theorem read_toJson (origin : Origin) (r : AtRule) : record.read origin r.toJson.draft = .ok r := by
  change record.ofMembers origin .closed [] default (Json.memberDrafts _) = _
  simp only [Json.memberDrafts]
  rw [Record.ofMembers_put rfl (by decide) (readString_string origin r.name),
    Record.ofMembers_put rfl (by decide) (readString_string origin r.prelude),
    Record.ofMembers_put rfl (by decide) (readList_strings origin r.params),
    Record.ofMembers_put rfl (by decide) (readNatural_integer origin r.line)]
  rfl

theorem fits_toJson {r : AtRule} (h : r.line < Number.wordCount) : r.toJson.Fits := by
  refine .object _ ?_
  simp only [List.forall_mem_cons, List.not_mem_nil, false_implies, implies_true, and_true]
  exact ⟨.string _, .string _, .array _ (List.forall_mem_map.mpr fun p _ => .string p),
    .integer _ h⟩

end AtRule

namespace Json

variable {text : List Char} {d : Draft}

/-- What a text holds is a text in it. -/
theorem IsText.parts (h : IsText text d) : d.Parts fun p => ∃ text, IsText text p := by
  cases h with
  | array gap items h => exact List.forall_mem_map.mpr fun i hi => ⟨i.text, h i hi⟩
  | object gap members h => exact List.forall_mem_map.mpr fun m hm => ⟨m.value.text, h m hm⟩
  | _ => trivial

theorem IsText.readNatural_lt {origin : Origin} {n : Nat} (h : IsText text d)
    (hn : readNatural origin d = .ok n) : n < Number.wordCount := by
  cases h with
  | number w =>
    cases hvalue : w.value with
    | error why =>
      rw [Number.Written.draft, hvalue] at hn
      cases hn
    | ok v =>
      rw [Number.Written.draft, hvalue] at hn
      cases v with
      | floating text => cases hn
      | integer i =>
        have hlt := Number.Written.value_integer_lt hvalue
        unfold readNatural at hn
        dsimp only at hn
        split at hn
        · cases hn
          omega
        · cases hn
  | _ => cases hn

end Json

namespace AtRule

/-- The line of a rule that is read fits in 64 bits. -/
theorem line_lt {origin : Origin} {text : List Char} {d : Draft} {r : AtRule} (h : IsText text d)
    (hr : record.read origin d = .ok r) : r.line < Number.wordCount := by
  refine Record.read_preserves (P := fun r => r.line < Number.wordCount) ?_ (by decide) h.parts hr
  simp only [record, List.forall_mem_cons, List.not_mem_nil, false_implies, implies_true, and_true]
  refine ⟨?_, ?_, ?_, ?_⟩ <;> refine Field.of_preserves ?_ _ <;> intro origin r d a hr hd ha
  · exact hr
  · exact hr
  · exact hr
  · obtain ⟨text, htext⟩ := hd
    exact htext.readNatural_lt ha

end AtRule

namespace Stylesheet

theorem read_toJson (origin : Origin) (s : Stylesheet) :
    record.read origin s.toJson.draft = .ok s := by
  have hsurface : readNamed Surface.names origin (Json.string s.surface.name).draft =
      .ok s.surface := by
    cases s.surface <;> rfl
  have hrules : readList AtRule.record.read origin (Json.array (s.rules.map AtRule.toJson)).draft =
      .ok s.rules := by
    rw [Json.draft, Json.itemDrafts_eq, List.map_map]
    exact readItems_map fun r _ => r.read_toJson origin
  change record.ofMembers origin .closed [] default (Json.memberDrafts _) = _
  simp only [Json.memberDrafts]
  rw [Record.ofMembers_put rfl (by decide) hsurface, Record.ofMembers_put rfl (by decide) hrules]
  rfl

/-- A stylesheet that is written is read back, if its lines fit in 64 bits. -/
theorem ofJson_text {s : Stylesheet} (h : ∀ r ∈ s.rules, r.line < Number.wordCount) :
    ofJson s.toJson.text = .ok s := by
  have hfits : s.toJson.Fits :=
    .object _ (List.forall_mem_cons.mpr ⟨.string _, List.forall_mem_singleton.mpr
      (.array _ (List.forall_mem_map.mpr fun r hr => AtRule.fits_toJson (h r hr)))⟩)
  exact (Json.decode_written hfits).trans (s.read_toJson .text)

/-- The lines of a stylesheet that is read fit in 64 bits. -/
theorem lines_lt {text : String} {s : Stylesheet} (h : ofJson text = .ok s) :
    ∀ r ∈ s.rules, r.line < Number.wordCount := by
  obtain ⟨-, -, chars, d, -, htext, hread⟩ := exists_text h
  refine Record.read_preserves (P := fun s => ∀ r ∈ s.rules, r.line < Number.wordCount) ?_
    (by intro r hr; cases hr) htext.parts hread
  simp only [record, List.forall_mem_cons, List.not_mem_nil, false_implies, implies_true, and_true]
  constructor <;> refine Field.of_preserves ?_ _ <;> intro origin s d a hs hd ha
  · exact hs
  · intro r hr
    obtain ⟨text, htext⟩ := hd
    obtain ⟨items, tail, rfl, item, hitem, hread⟩ := exists_of_mem_readList ha hr
    obtain ⟨text', htext'⟩ := htext.parts item hitem
    exact AtRule.line_lt htext' hread

end Stylesheet

/-- The member of an object with some name, if there is one. -/
def Json.member? : Json → String → Option Json
  | object members, name => members.lookup name
  | _, _ => none

/-- A dialect that is not given has no member; one that is given as `none` has its tag there. -/
theorem ExtractOptions.member_type (o : ExtractOptions) :
    o.toJson.member? "type" = o.dialect.map fun d => .string d.tag := by
  obtain ⟨_ | d, amd, es6, sass⟩ := o <;> rfl

theorem ExtractOptions.member_syntax (o : ExtractOptions) :
    (o.toJson.member? "sass").bind (·.member? "syntax") =
      o.sass.surface.map fun s => .string s.name := by
  obtain ⟨_ | d, amd, es6, _ | s⟩ := o <;> rfl

/-- The options for files are written beside their switch as those of an extraction are. -/
theorem FileOptions.member_of_ne (o : FileOptions) {name : String} (h : name ≠ switchName) :
    o.toJson.member? name = o.extract.toJson.member? name := by
  rw [FileOptions.toJson, Json.member?, List.lookup_cons, beq_eq_false_iff_ne.mpr h]
  rfl

/-- Stylesheets and options survive being written and read back: a stylesheet with any strings if
its lines fit in 64 bits, as they do if it was read from a text, and options of any values, wherever
they come from. What is not given is not written, so it stays apart from a dialect that is given as
`none`. -/
theorem Json.written_read_back :
    (∀ s : Stylesheet, (∀ r ∈ s.rules, r.line < Number.wordCount) →
        Stylesheet.ofJson s.toJson.text = .ok s) ∧
      (∀ (text : String) (s : Stylesheet), Stylesheet.ofJson text = .ok s →
        Stylesheet.ofJson s.toJson.text = .ok s) ∧
      (∀ o : ExtractOptions, ExtractOptions.ofJson o.toJson.text = .ok o ∧
        o.toJson.member? "type" = (o.dialect.map fun d => .string d.tag) ∧
        (o.toJson.member? "sass").bind (·.member? "syntax") =
          o.sass.surface.map fun s => .string s.name) ∧
      ∀ o : FileOptions, FileOptions.ofJson o.toJson.text = .ok o ∧
        o.toJson.member? "type" = (o.extract.dialect.map fun d => .string d.tag) ∧
        (o.toJson.member? "sass").bind (·.member? "syntax") =
          o.extract.sass.surface.map fun s => .string s.name := by
  refine ⟨fun s h => Stylesheet.ofJson_text h, fun text s h => ?_, fun o => ?_, fun o => ?_⟩
  · exact Stylesheet.ofJson_text (Stylesheet.lines_lt h)
  · exact ⟨o.ofJson_text, o.member_type, o.member_syntax⟩
  · have htype : o.toJson.member? "type" = o.extract.toJson.member? "type" :=
      o.member_of_ne (by decide)
    have hsass : o.toJson.member? "sass" = o.extract.toJson.member? "sass" :=
      o.member_of_ne (by decide)
    rw [htype, hsass]
    exact ⟨o.ofJson_text, o.extract.member_type, o.extract.member_syntax⟩

/-- A stylesheet with characters that must be escaped, and the last line that there can be. -/
def escapedSheet : Stylesheet where
  surface := .indented
  rules := [⟨"use", "\"a\\b\"\n\x01", ["a\\b", "é"], 18446744073709551615⟩]

/-- A stylesheet as an array of its fields, with the name of its surface as an object. -/
def sheetArray : Json := .array [.object [("stylus", .null)], .array []]

theorem escapedSheet_read_back :
    (∀ r ∈ escapedSheet.rules, r.line < Number.wordCount) ∧
      Stylesheet.ofJson escapedSheet.toJson.text = .ok escapedSheet ∧
      Stylesheet.ofJson sheetArray.text = .ok ⟨.stylus, []⟩ ∧
      Stylesheet.ofJson (Stylesheet.toJson ⟨.stylus, []⟩).text = .ok ⟨.stylus, []⟩ ∧
      FileOptions.ofJson (FileOptions.toJson { extract := { dialect := some .none } }).text =
        .ok { extract := { dialect := some .none } } ∧
      (FileOptions.toJson {}).member? "type" = none := by
  obtain ⟨hwritten, hread, -, hfile⟩ := Json.written_read_back
  have hlines : ∀ r ∈ escapedSheet.rules, r.line < Number.wordCount :=
    List.forall_mem_singleton.mpr (by decide)
  have hfits : sheetArray.Fits := by
    have hsurface : (Json.object [("stylus", .null)]).Fits :=
      .object _ (List.forall_mem_singleton.mpr .null)
    have hrules : (Json.array []).Fits := .array [] fun j hj => by cases hj
    exact .array _ (List.forall_mem_cons.mpr ⟨hsurface, List.forall_mem_singleton.mpr hrules⟩)
  have harray : Stylesheet.ofJson sheetArray.text = .ok ⟨.stylus, []⟩ :=
    (Json.decode_written hfits).trans rfl
  exact ⟨hlines, hwritten escapedSheet hlines, harray, hread sheetArray.text _ harray,
    (hfile _).1, (hfile {}).2.1⟩

end SourceDeps

import SourceDeps.Dispatch
import SourceDeps.Proofs.Detect
import SourceDeps.Proofs.Except

namespace SourceDeps

open SourceDeps.Extract

/-- The family of the trees that a dialect is extracted from, if it has an extractor. -/
def Dialect.family? : Dialect → Option Family
  | commonJs | amd | es6 => some .script
  | sass | stylus => some .stylesheet
  | less | none => Option.none

/-- Whether trees of a family can be given for a dialect. Without an extractor none is looked at. -/
def Dialect.takes (d : Dialect) (f : Family) : Bool := d.family?.all (· == f)

section
variable (options : ExtractOptions) (d : Dialect) (content : String)

/-- The modules that a dialect finds in a tree. -/
def modulesIn : Dialect → SourceTree → List String
  | .commonJs, .script t => CommonJs.dependencies t
  | .amd, .script t => Amd.dependencies options.amd t
  | .es6, .script t => Es6.dependencies options.es6 t
  | .sass, .stylesheet s => s.paramsOf Sass.loadingRules
  | .stylus, .stylesheet s => s.paramsOf Stylus.loadingRules
  | _, _ => []

def extractionOf : Option SourceTree → Extraction
  | some t => ⟨modulesIn options d t, some t⟩
  | none => ⟨[], none⟩

def surfaceOf : Dialect → Surface
  | .sass => options.sass.surface.getD .scss
  | _ => .stylus

/-- The tree that a text is read as for a dialect, if the dialect has an extractor. -/
def treeOfText : Except Failure (Option SourceTree) :=
  match d.family? with
  | some .script => ((Script.read content).mapError .notScript).map fun t => some (.script t)
  | some .stylesheet => .ok (some (.stylesheet (Stylesheet.read (surfaceOf options d) content)))
  | none => .ok none

theorem extractAs_tree (t : SourceTree) : extractAs d (.tree t) options =
    if d.takes t.family then .ok (extractionOf options d (some t))
    else .error (.wrongTree d t.family) := by
  cases d <;> cases t <;> rfl

theorem fromScript_text (found : Script.Tree → List String) : fromScript d found (.text content) =
    ((Script.read content).mapError .notScript).map fun t => ⟨found t, some (.script t)⟩ := by
  rw [fromScript]

theorem extractAs_text : extractAs d (.text content) options =
    (treeOfText options d content).map (extractionOf options d) := by
  cases d with
  | commonJs | amd | es6 =>
    simp only [extractAs, runExtractor, CommonJs.extract, Amd.extract, Es6.extract,
      fromScript_text, treeOfText, Dialect.family?]
    cases Script.read content <;> rfl
  | sass | stylus | less | none => rfl

theorem modulesIn_dialect (asked : Option Dialect) (t : SourceTree) :
    modulesIn { options with dialect := asked } d t = modulesIn options d t := by
  cases d <;> cases t <;> rfl

end

variable {options : ExtractOptions} {d : Dialect} {content : String} {source : Source}
  {t : SourceTree} {r : Extraction} {e : Failure}

theorem isScript_iff : d.isScript = true ↔ d.family? = some .script := by
  cases d <;> simp [Dialect.isScript, Dialect.family?]

theorem isStylesheet_iff : d = .sass ∨ d = .stylus ↔ d.family? = some .stylesheet := by
  cases d <;> simp [Dialect.family?]

theorem hasNoExtractor_iff : d = .less ∨ d = .none ↔ d.family? = none := by
  cases d <;> simp [Dialect.family?]

theorem takes_of_family {f : Family} (h : d.family? = some f) (g : Family) :
    d.takes g = true ↔ f = g := by
  rw [Dialect.takes, h, Option.all_some, beq_iff_eq]

theorem takes_of_no_family (h : d.family? = none) (g : Family) : d.takes g = true := by
  rw [Dialect.takes, h, Option.all_none]

/-- A text is read as a tree of the family of the dialect, or as none if there is no extractor. -/
theorem treeOfText_eq_ok {u : Option SourceTree} (h : treeOfText options d content = .ok u) :
    (d.family? = none ∧ u = none) ∨ ∃ t, d.family? = some t.family ∧ u = some t := by
  rw [treeOfText] at h
  cases hfamily : d.family? with
  | none =>
    rw [hfamily] at h
    exact .inl ⟨rfl, (Except.ok.inj h).symm⟩
  | some f =>
    cases f with
    | script =>
      rw [hfamily] at h
      obtain ⟨t, -, ht⟩ := map_eq_ok.mp h
      exact .inr ⟨.script t, rfl, ht.symm⟩
    | stylesheet =>
      rw [hfamily] at h
      exact .inr ⟨_, rfl, (Except.ok.inj h).symm⟩

theorem treeOfText_eq_error_iff : treeOfText options d content = .error e ↔
    d.isScript = true ∧ ∃ position, Script.read content = .error position ∧
      e = .notScript position := by
  rw [treeOfText, isScript_iff]
  cases hfamily : d.family? with
  | none => simp
  | some f =>
    cases f with
    | stylesheet => simp
    | script =>
      simp only [map_eq_error, true_and]
      cases Script.read content <;> simp [Except.mapError, eq_comm]

theorem isScript_or_none_of_ofScript (t : Script.Tree) :
    (Detect.ofScript t).isScript = true ∨ Detect.ofScript t = .none := by
  have hladder : ∀ d ∈ Detect.ladder, d.isScript = true ∨ d = .none := by decide
  exact hladder _ (Detect.ofScript_mem_ladder t)

theorem takes_detect (t : SourceTree) : t.detect.takes t.family = true := by
  cases t with
  | stylesheet sheet => rfl
  | script t =>
    rw [SourceTree.detect]
    obtain hd | hnone := isScript_or_none_of_ofScript t
    · exact (takes_of_family (isScript_iff.mp hd) _).mpr rfl
    · rw [hnone]
      rfl

theorem extract_asked (h : options.dialect = some d) :
    extract source options = extractAs d source options := by
  unfold extract
  rw [h]

theorem extract_tree (h : options.dialect = none) (t : SourceTree) :
    extract (.tree t) options = .ok (extractionOf options t.detect (some t)) := by
  unfold extract
  simp only [h, extractAs_tree, takes_detect, if_true]

theorem extract_text (h : options.dialect = none) (content : String) :
    extract (.text content) options = extractRead options (Script.read content) := by
  unfold extract
  rw [h]

/-- When the dialect is to be found out, a text is extracted from as the tree that it is read as. -/
theorem extract_text_of_script (h : options.dialect = none) {t : Script.Tree}
    (hread : Script.read content = .ok t) :
    extract (.text content) options = extract (.tree (.script t)) options := by
  rw [extract_text h, hread, extractRead, extractAs_tree, extract_tree h]
  exact if_pos (takes_detect (.script t))

theorem extract_text_of_not_script (h : options.dialect = none) {position : Script.Position}
    (hread : Script.read content = .error position) :
    extract (.text content) options = .ok ⟨[], none⟩ := by
  rw [extract_text h, hread, extractRead]

theorem exists_extract (h : options.dialect = none) (source : Source) :
    ∃ r, extract source options = .ok r := by
  cases source with
  | tree t => exact ⟨_, extract_tree h t⟩
  | text content =>
    cases hread : Script.read content with
    | ok t => exact ⟨_, (extract_text_of_script h hread).trans (extract_tree h _)⟩
    | error position => exact ⟨_, extract_text_of_not_script h hread⟩

/-- A script gives the same modules and the same tree, whether its dialect is found out or asked for
by name. If there is no dialect to find, nothing is found either way. A text that is no script gives
nothing, but is an error when a dialect of scripts is asked for. -/
theorem extract_detected_eq_asked (content : String) (options : ExtractOptions) :
    match Script.read content with
    | .ok t =>
      ((Detect.ofScript t).isScript = true ∧
        extract (.text content) { options with dialect := none } =
          .ok ⟨modulesIn options (Detect.ofScript t) (.script t), some (.script t)⟩ ∧
        extract (.text content) { options with dialect := some (Detect.ofScript t) } =
          .ok ⟨modulesIn options (Detect.ofScript t) (.script t), some (.script t)⟩) ∨
      (Detect.ofScript t = .none ∧
        extract (.text content) { options with dialect := none } = .ok ⟨[], some (.script t)⟩ ∧
        extract (.text content) { options with dialect := some .none } = .ok ⟨[], none⟩)
    | .error position =>
      extract (.text content) { options with dialect := none } = .ok ⟨[], none⟩ ∧
      ∀ d : Dialect, d.isScript = true →
        extract (.text content) { options with dialect := some d } =
          .error (.notScript position) := by
  have hasked (d : Dialect) : extract (.text content) { options with dialect := some d } =
      (treeOfText { options with dialect := some d } d content).map
        (extractionOf { options with dialect := some d } d) := by
    rw [extract_asked rfl, extractAs_text]
  have hscript (d : Dialect) (hd : d.isScript = true) :
      treeOfText { options with dialect := some d } d content =
        ((Script.read content).mapError .notScript).map fun t => some (.script t) := by
    rw [treeOfText, isScript_iff.mp hd]
  cases hread : Script.read content with
  | error position =>
    refine ⟨extract_text_of_not_script rfl hread, fun d hd => ?_⟩
    rw [hasked, hscript d hd, hread]
    rfl
  | ok t =>
    have hfound : extract (.text content) { options with dialect := none } =
        .ok ⟨modulesIn options (Detect.ofScript t) (.script t), some (.script t)⟩ := by
      rw [extract_text_of_script rfl hread, extract_tree rfl, SourceTree.detect, extractionOf,
        modulesIn_dialect]
    obtain hd | hnone := isScript_or_none_of_ofScript t
    · -- The text is read once more, for the dialect that was found in its tree.
      refine .inl ⟨hd, hfound, ?_⟩
      rw [hasked, hscript _ hd, hread]
      simp only [Except.mapError, Except.map, extractionOf, modulesIn_dialect]
    · refine .inr ⟨hnone, ?_, hasked .none⟩
      rw [hfound, hnone]
      rfl

/-- What a dialect refuses when it is asked for by name, and with which failure: dialects of scripts
refuse texts that are none, and each dialect with an extractor the trees of the other family. -/
inductive Refuses : Dialect → Source → Failure → Prop where
  | text {d : Dialect} {content : String} {position : Script.Position} (hd : d.isScript = true)
      (hread : Script.read content = .error position) :
      Refuses d (.text content) (.notScript position)
  | stylesheet {d : Dialect} {sheet : Stylesheet} (hd : d.isScript = true) :
      Refuses d (.tree (.stylesheet sheet)) (.wrongTree d .stylesheet)
  | script {d : Dialect} {t : Script.Tree} (hd : d = .sass ∨ d = .stylus) :
      Refuses d (.tree (.script t)) (.wrongTree d .script)

theorem Refuses.exists_family (h : Refuses d source e) : ∃ f, d.family? = some f := by
  cases h with
  | text hd _ => exact ⟨_, isScript_iff.mp hd⟩
  | stylesheet hd => exact ⟨_, isScript_iff.mp hd⟩
  | script hd => exact ⟨_, isStylesheet_iff.mp hd⟩

theorem refuses_text_iff : Refuses d (.text content) e ↔ d.isScript = true ∧
    ∃ position, Script.read content = .error position ∧ e = .notScript position := by
  constructor
  · rintro ⟨hd, hread⟩
    exact ⟨hd, _, hread, rfl⟩
  · rintro ⟨hd, position, hread, rfl⟩
    exact .text hd hread

theorem refuses_tree_iff :
    Refuses d (.tree t) e ↔ d.takes t.family = false ∧ e = .wrongTree d t.family := by
  constructor
  · rintro (⟨⟩ | hd | hd)
    · rw [isScript_iff] at hd
      exact ⟨by rw [← Bool.not_eq_true, takes_of_family hd]; nofun, rfl⟩
    · rw [isStylesheet_iff] at hd
      exact ⟨by rw [← Bool.not_eq_true, takes_of_family hd]; nofun, rfl⟩
  · rintro ⟨htakes, rfl⟩
    rw [← Bool.not_eq_true] at htakes
    cases hfamily : d.family? with
    | none => exact absurd (takes_of_no_family hfamily _) htakes
    | some f =>
      rw [takes_of_family hfamily] at htakes
      -- Of the two families the tree has the one that the dialect does not take.
      cases t with
      | script t =>
        cases f with
        | script => exact absurd rfl htakes
        | stylesheet => exact .script (isStylesheet_iff.mpr hfamily)
      | stylesheet sheet =>
        cases f with
        | script => exact .stylesheet (isScript_iff.mpr hfamily)
        | stylesheet => exact absurd rfl htakes

theorem extractAs_eq_error_iff : extractAs d source options = .error e ↔ Refuses d source e := by
  cases source with
  | tree t =>
    rw [extractAs_tree, refuses_tree_iff]
    cases d.takes t.family <;> simp [eq_comm]
  | text content =>
    rw [extractAs_text, map_eq_error, treeOfText_eq_error_iff, refuses_text_iff]

theorem extract_eq_error_iff :
    extract source options = .error e ↔ ∃ d, options.dialect = some d ∧ Refuses d source e := by
  cases hdialect : options.dialect with
  | none =>
    obtain ⟨r, hr⟩ := exists_extract hdialect source
    simp [hr]
  | some d =>
    rw [extract_asked hdialect, extractAs_eq_error_iff]
    simp

/-- Extraction fails exactly when a dialect is asked for that refuses what is given. So nothing can
make it fail when the dialect is to be found out, has no extractor or is not known. -/
theorem extract_fails_iff_refuses (source : Source) (options : ExtractOptions) :
    (∀ e, extract source options = .error e ↔
      ∃ d, options.dialect = some d ∧ Refuses d source e) ∧
    (options.dialect = none ∨ options.dialect = some .less ∨ options.dialect = some .none →
      ∃ r, extract source options = .ok r) ∧
    ∀ tag, (∀ d : Dialect, d.tag ≠ tag) →
      ∃ r, extract source { options with dialect := some (.ofTag tag) } = .ok r := by
  have hok (asked : ExtractOptions) (h : ∀ d, asked.dialect = some d → d.family? = none) :
      ∃ r, extract source asked = .ok r := by
    cases hresult : extract source asked with
    | ok r => exact ⟨r, rfl⟩
    | error e =>
      obtain ⟨d, hd, hrefuses⟩ := extract_eq_error_iff.mp hresult
      obtain ⟨f, hf⟩ := hrefuses.exists_family
      rw [h d hd] at hf
      cases hf
  refine ⟨fun e => extract_eq_error_iff, fun h => hok options fun d hd => ?_, fun tag htag => ?_⟩
  · rw [hd] at h
    rcases h with h | h | h <;> cases h <;> rfl
  · have hnone : Dialect.ofTag tag = .none := by
      have hfind : (Dialect.all.find? fun d => d.tag == tag) = none := by simp [htag]
      rw [Dialect.ofTag, hfind]
      rfl
    refine hok _ fun d hd => ?_
    obtain rfl : Dialect.ofTag tag = d := Option.some.inj hd
    rw [hnone]
    rfl

theorem extractAs_tree_eq_ok_iff :
    extractAs d (.tree t) options = .ok r ↔
      d.takes t.family = true ∧ extractionOf options d (some t) = r := by
  rw [extractAs_tree]
  cases d.takes t.family <;> simp

theorem extract_tree_eq_some (h : extract (.tree t) options = .ok r) : r.tree = some t := by
  cases hdialect : options.dialect with
  | none =>
    rw [extract_tree hdialect] at h
    exact Except.ok.inj h ▸ rfl
  | some d =>
    rw [extract_asked hdialect, extractAs_tree_eq_ok_iff] at h
    exact h.2 ▸ rfl

/-- What was extracted for a dialect is extracted again from the tree that was handed back. -/
theorem extractAs_again (h : extractAs d source options = .ok r) (ht : r.tree = some t) :
    extractAs d (.tree t) options = .ok r := by
  cases source with
  | tree u =>
    obtain ⟨-, rfl⟩ := extractAs_tree_eq_ok_iff.mp h
    obtain rfl : u = t := Option.some.inj ht
    exact h
  | text content =>
    rw [extractAs_text] at h
    obtain ⟨u, hu, rfl⟩ := map_eq_ok.mp h
    obtain ⟨-, rfl⟩ | ⟨v, hfamily, rfl⟩ := treeOfText_eq_ok hu
    · cases ht
    · obtain rfl : v = t := Option.some.inj ht
      exact extractAs_tree_eq_ok_iff.mpr ⟨(takes_of_family hfamily _).mpr rfl, rfl⟩

theorem extract_again (h : extract source options = .ok r) (ht : r.tree = some t) :
    extract (.tree t) options = .ok r := by
  cases hdialect : options.dialect with
  | some d =>
    rw [extract_asked hdialect] at h ⊢
    exact extractAs_again h ht
  | none =>
    -- The tree is looked at once more, with the same dialect found out.
    have htree (u : SourceTree) (hu : extract (.tree u) options = .ok r) :
        extract (.tree t) options = .ok r := by
      obtain rfl : u = t := Option.some.inj ((extract_tree_eq_some hu).symm.trans ht)
      exact hu
    cases source with
    | tree u => exact htree u h
    | text content =>
      cases hread : Script.read content with
      | ok u => exact htree (.script u) (extract_text_of_script hdialect hread ▸ h)
      | error position =>
        rw [extract_text_of_not_script hdialect hread] at h
        obtain rfl := Except.ok.inj h
        cases ht

theorem extract_text_tree_eq_none_iff (h : extract (.text content) options = .ok r) :
    r.tree = none ↔
      (options.dialect = none ∧ ∃ position, Script.read content = .error position) ∨
        options.dialect = some .less ∨ options.dialect = some .none := by
  cases hdialect : options.dialect with
  | none =>
    cases hread : Script.read content with
    | ok t =>
      have ht := extract_tree_eq_some (extract_text_of_script hdialect hread ▸ h)
      simp [ht]
    | error position =>
      rw [extract_text_of_not_script hdialect hread] at h
      simp [← Except.ok.inj h]
  | some d =>
    rw [extract_asked hdialect, extractAs_text] at h
    obtain ⟨u, hu, rfl⟩ := map_eq_ok.mp h
    simp only [Option.some.injEq, reduceCtorEq, false_and, false_or, hasNoExtractor_iff]
    obtain ⟨hfamily, rfl⟩ | ⟨v, hfamily, rfl⟩ := treeOfText_eq_ok hu <;>
      simp [hfamily, extractionOf]

/-- Extracts from a tree, and then a number of times from the tree that was handed back last. -/
def extractRepeatedly (options : ExtractOptions) (t : SourceTree) :
    Nat → Except Failure Extraction
  | 0 => extract (.tree t) options
  | n + 1 => do
    let r ← extractRepeatedly options t n
    match r.tree with
    | some t => extract (.tree t) options
    | none => return r

theorem extractRepeatedly_eq (h : extract (.tree t) options = .ok r) (n : Nat) :
    extractRepeatedly options t n = .ok r := by
  induction n with
  | zero => exact h
  | succ n ih =>
    have ht : r.tree = some t := extract_tree_eq_some h
    rw [extractRepeatedly, ih]
    simp only [bind, Except.bind, ht]
    exact h

/-- The tree that an extraction hands back stands for what was extracted from: it is the tree that
was given, and for a text there is one unless the text is no script and the dialect was to be found
out, or the dialect has no extractor. Extracting from it gives the same result, and does so any
number of times. -/
theorem extract_tree_stands (source : Source) (options : ExtractOptions) (r : Extraction)
    (h : extract source options = .ok r) :
    (∀ t, source = .tree t → r.tree = some t) ∧
    (∀ content, source = .text content → (r.tree = none ↔
      (options.dialect = none ∧ ∃ position, Script.read content = .error position) ∨
        options.dialect = some .less ∨ options.dialect = some .none)) ∧
    ∀ t, r.tree = some t → extract (.tree t) options = .ok r ∧
      ∀ n, extractRepeatedly options t n = .ok r := by
  refine ⟨fun t hsource => ?_, fun content hsource => ?_, fun t ht => ?_⟩
  · exact extract_tree_eq_some (hsource ▸ h)
  · exact extract_text_tree_eq_none_iff (hsource ▸ h)
  · have hagain := extract_again h ht
    exact ⟨hagain, extractRepeatedly_eq hagain⟩

/-- A sheet whose first line ends the rule only as it is written by indentation. -/
def indentedText : String := "@use a, 'b'\nbody"

def indentedOptions : ExtractOptions := { dialect := some .sass, sass := ⟨some .indented⟩ }

def indentedSheet : SourceTree := .stylesheet ⟨.indented, [⟨"use", "a, 'b'", ["a", "b"], 1⟩]⟩

theorem indentedSheet_stands :
    extract (.text indentedText) indentedOptions = .ok ⟨["a", "b"], some indentedSheet⟩ ∧
    extract (.tree indentedSheet) indentedOptions = .ok ⟨["a", "b"], some indentedSheet⟩ ∧
    ∀ n, extractRepeatedly indentedOptions indentedSheet n =
      .ok ⟨["a", "b"], some indentedSheet⟩ := by
  have hread : Stylesheet.read .indented indentedText =
      ⟨.indented, [⟨"use", "a, 'b'", ["a", "b"], 1⟩]⟩ := by
    decide +kernel
  have hextract : extract (.text indentedText) indentedOptions =
      .ok ⟨["a", "b"], some indentedSheet⟩ := by
    have hsheet : treeOfText indentedOptions .sass indentedText = .ok (some indentedSheet) :=
      congrArg (fun s => Except.ok (some (SourceTree.stylesheet s))) hread
    rw [extract_asked rfl, extractAs_text, hsheet]
    rfl
  exact ⟨hextract, (extract_tree_stands _ _ _ hextract).2.2 indentedSheet rfl⟩

end SourceDeps

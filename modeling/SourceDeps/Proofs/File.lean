import SourceDeps.File.Extract
import SourceDeps.Proofs.Dispatch

namespace SourceDeps

/-- Options with the same blocks for the dialects. They may ask for different dialects, and differ
in whether the runtime's modules are kept. -/
def FileOptions.SameBlocks (o o' : FileOptions) : Prop :=
  o.extract.amd = o'.extract.amd ∧ o.extract.es6 = o'.extract.es6 ∧ o.extract.sass = o'.extract.sass

def withoutBuiltins (names : List String) : List String :=
  names.filter fun name => !Builtin.isBuiltin name

variable {read : FileReader} {path text : String} {o o' : FileOptions}

theorem isScript_of_ofExtension? {extension : String} {d : Dialect}
    (h : Dialect.ofExtension? extension = some d) : d.isScript = false := by
  unfold Dialect.ofExtension? at h
  split at h <;> cases h <;> rfl

theorem dialect_hinted (options : ExtractOptions) (path : String) :
    (options.hinted path).dialect = Dialect.ofExtension? (extensionOf path) := by
  simp only [ExtractOptions.hinted]

theorem exists_extract_hinted (options : ExtractOptions) (path text : String) :
    ∃ r, extract (.text text) (options.hinted path) = .ok r := by
  cases hresult : extract (.text text) (options.hinted path) with
  | ok r => exact ⟨r, rfl⟩
  | error e =>
    -- Only dialects of scripts refuse texts, and none of these is hinted at.
    obtain ⟨d, hd, hrefuses⟩ := extract_eq_error_iff.mp hresult
    have hscript := (refuses_text_iff.mp hrefuses).1
    rw [dialect_hinted] at hd
    rw [isScript_of_ofExtension? hd] at hscript
    cases hscript

theorem FileOptions.SameBlocks.hinted_eq (h : o.SameBlocks o') (path : String) :
    o.extract.hinted path = o'.extract.hinted path := by
  obtain ⟨hamd, hes6, hsass⟩ := h
  rw [ExtractOptions.hinted, ExtractOptions.hinted, hamd, hes6, hsass]

theorem extractFile_of_read_error {fault : FileFault} (hread : read path = .error fault) :
    extractFile read path o = .error (.file path fault) := by
  rw [extractFile, readFile, hread]
  rfl

theorem extractFile_of_read_ok (hread : read path = .ok text) {r : Extraction}
    (hr : extract (.text text) (o.extract.hinted path) = .ok r) :
    extractFile read path o = .ok ⟨o.kept r.dependencies, r.tree⟩ := by
  rw [extractFile, readFile, hread]
  simp only [bind, Except.bind, hr]
  rfl

theorem extractFile_eq_error_iff {e : Failure} : extractFile read path o = .error e ↔
    ∃ fault, read path = .error fault ∧ e = .file path fault := by
  cases hread : read path with
  | error fault =>
    rw [extractFile_of_read_error hread]
    simp [eq_comm]
  | ok text =>
    obtain ⟨r, hr⟩ := exists_extract_hinted o.extract path text
    rw [extractFile_of_read_ok hread hr]
    simp

theorem Directory.read_fails_iff (d : Directory) (path : String) :
    (∃ fault, d.read path = .error fault) ↔
      ∀ bytes, d.entry? path = some (.file bytes) → ¬bytes.IsValidUTF8 := by
  rw [Directory.read]
  cases d.entry? path with
  | none => simp
  | some entry =>
    cases entry with
    | directory => simp
    | file bytes =>
      by_cases hvalid : bytes.IsValidUTF8 <;> simp [String.fromUTF8?, hvalid]

/-- Extraction from a file fails exactly when the file cannot be read as a text, whatever the text
is. The dialect in the options does not count, and leaving out the runtime's modules takes just
these out of what is found otherwise. -/
theorem extractFile_only_filters (read : FileReader) (path : String) (o o' : FileOptions)
    (h : o.SameBlocks o') :
    (∀ e, extractFile read path o = .error e ↔
      ∃ fault, read path = .error fault ∧ e = .file path fault) ∧
    (∀ e, extractFile read path o = .error e ↔ extractFile read path o' = .error e) ∧
    (∀ d : Directory, read = d.read → ((∃ e, extractFile read path o = .error e) ↔
      ∀ bytes, d.entry? path = some (.file bytes) → ¬bytes.IsValidUTF8)) ∧
    ∀ r r', extractFile read path o = .ok r → extractFile read path o' = .ok r' →
      r.tree = r'.tree ∧
      (o.includeCore = o'.includeCore → r.dependencies = r'.dependencies) ∧
      (o.includeCore = true → o'.includeCore = false →
        r'.dependencies = withoutBuiltins r.dependencies) := by
  refine ⟨fun e => extractFile_eq_error_iff, fun e => ?_, ?_, ?_⟩
  · rw [extractFile_eq_error_iff, extractFile_eq_error_iff]
  · rintro d rfl
    rw [← Directory.read_fails_iff]
    simp only [extractFile_eq_error_iff]
    constructor
    · rintro ⟨e, fault, hfault, -⟩
      exact ⟨fault, hfault⟩
    · rintro ⟨fault, hfault⟩
      exact ⟨_, fault, hfault, rfl⟩
  · intro r r' hr hr'
    cases hread : read path with
    | error fault =>
      rw [extractFile_of_read_error hread] at hr
      cases hr
    | ok text =>
      -- Both are what one extraction from the text gives, before the filter.
      obtain ⟨found, hfound⟩ := exists_extract_hinted o.extract path text
      have hfound' : extract (.text text) (o'.extract.hinted path) = .ok found := by
        rw [← h.hinted_eq]
        exact hfound
      rw [extractFile_of_read_ok hread hfound] at hr
      rw [extractFile_of_read_ok hread hfound'] at hr'
      obtain rfl := Except.ok.inj hr
      obtain rfl := Except.ok.inj hr'
      refine ⟨rfl, fun hcore => ?_, fun hcore hcore' => ?_⟩
      · simp only [FileOptions.kept, hcore]
      · simp only [FileOptions.kept, hcore, hcore', if_true]
        rfl

def sassText : String := "@use 'fs', b\n"

def sassFile : Directory := .ofNames [("a.sass", sassText.toUTF8)]

def sassTree : SourceTree := .stylesheet ⟨.indented, [⟨"use", "'fs', b", ["fs", "b"], 1⟩]⟩

/-- A file asked for as a script is read by its extension, and only the runtime's module goes. -/
theorem sassFile_only_filters :
    let asked : FileOptions := { extract := { dialect := some .es6 } }
    let bare : FileOptions := { includeCore := false }
    asked.SameBlocks bare ∧
    extractFile sassFile.read "a.sass" asked = .ok ⟨["fs", "b"], some sassTree⟩ ∧
    extractFile sassFile.read "a.sass" bare = .ok ⟨["b"], some sassTree⟩ := by
  intro asked bare
  have hsame : asked.SameBlocks bare := ⟨rfl, rfl, rfl⟩
  have hread : sassFile.read "a.sass" = .ok sassText := by decide +kernel
  have hhinted : asked.extract.hinted "a.sass" =
      { dialect := some .sass, sass := ⟨some .indented⟩ } := by
    decide +kernel
  have hsheet : Stylesheet.read .indented sassText =
      ⟨.indented, [⟨"use", "'fs', b", ["fs", "b"], 1⟩]⟩ := by
    decide +kernel
  have hextract : extract (.text sassText) (asked.extract.hinted "a.sass") =
      .ok ⟨["fs", "b"], some sassTree⟩ := by
    have htree : treeOfText { dialect := some .sass, sass := ⟨some .indented⟩ } .sass sassText =
        .ok (some sassTree) :=
      congrArg (fun s => Except.ok (some (SourceTree.stylesheet s))) hsheet
    rw [hhinted, extract_asked rfl, extractAs_text, htree]
    rfl
  have hasked : extractFile sassFile.read "a.sass" asked = .ok ⟨["fs", "b"], some sassTree⟩ :=
    extractFile_of_read_ok hread hextract
  obtain ⟨-, hfails, -, hok⟩ :=
    extractFile_only_filters sassFile.read "a.sass" asked bare hsame
  -- As one succeeds, so does the other, and what it gives is known up to the filter.
  cases hbare : extractFile sassFile.read "a.sass" bare with
  | error e =>
    rw [(hfails e).mpr hbare] at hasked
    cases hasked
  | ok r' =>
    obtain ⟨htree, -, hfilter⟩ := hok _ _ hasked hbare
    have hbuiltins : withoutBuiltins ["fs", "b"] = ["b"] := by decide +kernel
    have hdependencies := hfilter rfl rfl
    rw [hbuiltins] at hdependencies
    refine ⟨hsame, hasked, ?_⟩
    cases r'
    cases htree
    cases hdependencies
    rfl

end SourceDeps

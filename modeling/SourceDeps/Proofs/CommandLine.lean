import Mathlib.Data.List.Induction
import SourceDeps.CommandLine.Report
import SourceDeps.Proofs.File

namespace SourceDeps

variable {read : FileReader} {path text : String} {options options' : ExtractOptions}
  {o : FileOptions} {d : Dialect} {r : Extraction}

theorem fromFile_of_read_ok (hread : read path = .ok text)
    (hr : extract (.text text) (o.extract.hinted path) = .ok r) :
    fromFile read path o = .ok (o.kept r.dependencies) := by
  rw [fromFile, extractFile_of_read_ok hread hr]
  rfl

theorem scanAs_of_read_ok (hread : read path = .ok text)
    (hr : extract (.text text) { o.extract with dialect := some d } = .ok r) :
    scanAs read path d o = .ok (o.kept r.dependencies) := by
  rw [scanAs, readFile, hread]
  simp only [bind, Except.bind, hr]
  rfl

/-- Of the options for a stylesheet only its surface counts. -/
theorem extractAs_text_of_surfaceOf (hd : d.isScript = false)
    (h : surfaceOf options d = surfaceOf options' d) (content : String) :
    extractAs d (.text content) options = extractAs d (.text content) options' := by
  cases d with
  | commonJs | amd | es6 => cases hd
  | sass | stylus =>
    rw [extractAs_text, extractAs_text]
    simp only [treeOfText, Dialect.family?, h]
    rfl
  | less | none => rfl

theorem surfaceOf_of_ne (hd : d ≠ .sass) : surfaceOf options d = .stylus := by
  cases d with
  | sass => exact absurd rfl hd
  | commonJs | amd | es6 | stylus | less | none => rfl

theorem surfaceOf_hinted (hhint : Dialect.ofExtension? (extensionOf path) = some d)
    (hsurface : d = .sass → options.sass.surface = none →
      Text.lowered (extensionOf path) ≠ "sass") :
    surfaceOf (options.hinted path) d = surfaceOf options d := by
  by_cases hd : d = .sass
  · subst hd
    simp only [surfaceOf, ExtractOptions.hinted, hhint, if_true]
    -- A surface that is given stays; otherwise the hint gives that of the extension.
    cases hs : options.sass.surface with
    | some s => rfl
    | none =>
      have hscss : Surface.ofExtension (extensionOf path) = .scss := if_neg (hsurface rfl hs)
      rw [Option.none_or, hscss]
      rfl
  · rw [surfaceOf_of_ne hd, surfaceOf_of_ne hd]

/-- Naming the dialect that the extension hints at changes nothing, as long as the surface that goes
with the hint is the one that is taken without it. -/
theorem extract_asked_eq_hinted (hhint : Dialect.ofExtension? (extensionOf path) = some d)
    (hsurface : d = .sass → options.sass.surface = none →
      Text.lowered (extensionOf path) ≠ "sass") (content : String) :
    extract (.text content) { options with dialect := some d } =
      extract (.text content) (options.hinted path) := by
  have hd : d.isScript = false := isScript_of_ofExtension? hhint
  have hasked : (options.hinted path).dialect = some d := (dialect_hinted options path).trans hhint
  have hsame : surfaceOf { options with dialect := some d } d = surfaceOf (options.hinted path) d :=
    (surfaceOf_hinted hhint hsurface).symm
  rw [extract_asked rfl, extract_asked hasked, extractAs_text_of_surfaceOf hd hsame]

theorem hinted_of_no_hint (hhint : Dialect.ofExtension? (extensionOf path) = none) :
    options.hinted path = { options with dialect := none } := by
  simp only [ExtractOptions.hinted, hhint, reduceCtorEq, if_false]

/-- Naming the dialect that is found in a script finds the same modules. -/
theorem exists_extract_asked_detected {t : Script.Tree} (ht : Script.read text = .ok t)
    (options : ExtractOptions) :
    ∃ r r', extract (.text text) { options with dialect := none } = .ok r ∧
      extract (.text text) { options with dialect := some (Detect.ofScript t) } = .ok r' ∧
      r.dependencies = r'.dependencies := by
  have hfound : extract (.text text) { options with dialect := none } =
      .ok (extractionOf { options with dialect := none } (Detect.ofScript t) (some (.script t))) := by
    rw [extract_text_of_script rfl ht, extract_tree rfl]
    rfl
  obtain hscript | hnone := isScript_or_none_of_ofScript t
  · -- The text is read again, as the same tree.
    have hread : treeOfText { options with dialect := some (Detect.ofScript t) }
        (Detect.ofScript t) text = .ok (some (.script t)) := by
      rw [treeOfText, isScript_iff.mp hscript, ht]
      rfl
    have hasked : extract (.text text) { options with dialect := some (Detect.ofScript t) } =
        .ok (extractionOf { options with dialect := some (Detect.ofScript t) }
          (Detect.ofScript t) (some (.script t))) := by
      rw [extract_asked rfl, extractAs_text, hread]
      rfl
    refine ⟨_, _, hfound, hasked, ?_⟩
    simp only [extractionOf, modulesIn_dialect]
  · -- No dialect is found, and in a text of no dialect nothing is looked for.
    refine ⟨_, ⟨[], none⟩, hfound, ?_, ?_⟩
    · rw [hnone]
      rfl
    · rw [hnone]
      rfl

/-- The two ways of scanning a file agree. If its extension hints at a dialect, or hints at none and
its content is a script of that dialect, then naming the dialect finds the same in it, with the
runtime's modules left out or not. The one exception are files of indented Sass for which no surface
is given. -/
theorem scanAs_agrees_fromFile (read : FileReader) (path text : String) (o : FileOptions)
    (d : Dialect) (hread : read path = .ok text)
    (hd : Dialect.ofExtension? (extensionOf path) = some d ∨
      (Dialect.ofExtension? (extensionOf path) = none ∧
        ∃ t, Script.read text = .ok t ∧ Detect.ofScript t = d))
    (hsurface : d ≠ .sass ∨ (∃ s, o.extract.sass.surface = some s) ∨
      Text.lowered (extensionOf path) ≠ "sass") :
    ∃ ds, scanAs read path d o = .ok ds ∧ fromFile read path o = .ok ds := by
  -- It is enough that both ways extract the same modules: what is kept of them is the same.
  have hboth : ∃ r r', extract (.text text) (o.extract.hinted path) = .ok r ∧
      extract (.text text) { o.extract with dialect := some d } = .ok r' ∧
      r.dependencies = r'.dependencies := by
    obtain hhint | ⟨hhint, t, ht, rfl⟩ := hd
    · obtain ⟨r, hr⟩ := exists_extract_hinted o.extract path text
      have hasked : d = .sass → o.extract.sass.surface = none →
          Text.lowered (extensionOf path) ≠ "sass" := by
        intro hsass hnone
        obtain hne | ⟨s, hs⟩ | hne := hsurface
        · exact absurd hsass hne
        · rw [hnone] at hs
          cases hs
        · exact hne
      exact ⟨r, r, hr, (extract_asked_eq_hinted hhint hasked text).trans hr, rfl⟩
    · rw [hinted_of_no_hint hhint]
      exact exists_extract_asked_detected ht o.extract
  obtain ⟨r, r', hr, hr', hsame⟩ := hboth
  refine ⟨o.kept r.dependencies, ?_, fromFile_of_read_ok hread hr⟩
  rw [scanAs_of_read_ok hread hr', hsame]

def scssText : String := "@use 'fs',\n  b;"

def scssFile : Directory := .ofNames [("a.SCSS", scssText.toUTF8)]

def scssSheet : Stylesheet := ⟨.scss, [⟨"use", "'fs',\n  b;", ["fs", "b"], 1⟩]⟩

/-- The extension in capitals hints at Sass with braces, where the rule goes on over the line. -/
theorem scssFile_agrees :
    let o : FileOptions := { includeCore := false, extract := { dialect := some .less } }
    scssFile.read "a.SCSS" = .ok scssText ∧
    Dialect.ofExtension? (extensionOf "a.SCSS") = some .sass ∧
    Text.lowered (extensionOf "a.SCSS") ≠ "sass" ∧
    scanAs scssFile.read "a.SCSS" .sass o = .ok ["b"] ∧
    fromFile scssFile.read "a.SCSS" o = .ok ["b"] := by
  intro o
  have hread : scssFile.read "a.SCSS" = .ok scssText := by decide +kernel
  have hhint : Dialect.ofExtension? (extensionOf "a.SCSS") = some .sass := by decide +kernel
  have hsurface : Text.lowered (extensionOf "a.SCSS") ≠ "sass" := by decide +kernel
  have hsheet : Stylesheet.read .scss scssText = scssSheet := by decide +kernel
  have hextract : extract (.text scssText) { o.extract with dialect := some .sass } =
      .ok ⟨["fs", "b"], some (.stylesheet scssSheet)⟩ := by
    have htree : treeOfText { o.extract with dialect := some .sass } .sass scssText =
        .ok (some (.stylesheet scssSheet)) :=
      congrArg (fun s => Except.ok (some (SourceTree.stylesheet s))) hsheet
    rw [extract_asked rfl, extractAs_text, htree]
    rfl
  have hkept : o.kept ["fs", "b"] = ["b"] := by decide +kernel
  have hscan : scanAs scssFile.read "a.SCSS" .sass o = .ok ["b"] := by
    rw [scanAs_of_read_ok hread hextract, hkept]
  obtain ⟨ds, hds, hfrom⟩ := scanAs_agrees_fromFile scssFile.read "a.SCSS" scssText o .sass hread
    (.inl hhint) (.inr (.inr hsurface))
  obtain rfl : ["b"] = ds := Except.ok.inj (hscan.symm.trans hds)
  exact ⟨hread, hhint, hsurface, hscan, hfrom⟩

namespace CommandLine

namespace Report

/-- The names ascend. So no name stands twice, and a report is a map. -/
def Ascending (r : Report) : Prop := r.Pairwise fun a b => a.1 < b.1

variable {r s : Report}

theorem Ascending.nodup (h : r.Ascending) : r.Nodup := by
  refine List.Pairwise.imp ?_ h
  rintro a b hlt rfl
  exact String.lt_irrefl _ hlt

/-- A report is determined by its entries. -/
theorem Ascending.eq_of_mem_iff (hr : r.Ascending) (hs : s.Ascending)
    (h : ∀ entry, entry ∈ r ↔ entry ∈ s) : r = s := by
  have hperm : r.Perm s := (List.perm_ext_iff_of_nodup hr.nodup hs.nodup).mpr h
  exact hperm.eq_of_pairwise (fun a b _ _ hab hba => absurd hba (String.lt_asymm hab)) hr hs

/-- A name before the first one is before all of them. -/
theorem Ascending.lt_of_lt_first {name other : String} {found : List String}
    (h : Ascending ((other, found) :: r)) (hlt : name < other) :
    ∀ e ∈ (other, found) :: r, name < e.1 := by
  obtain ⟨hfirst, -⟩ := List.pairwise_cons.mp h
  intro e he
  rcases List.mem_cons.mp he with rfl | he
  · exact hlt
  · exact String.lt_trans hlt (hfirst e he)

theorem ne_of_forall_lt {name : String} (h : ∀ e ∈ r, name < e.1) : ∀ e ∈ r, e.1 ≠ name := by
  rintro e he rfl
  exact String.lt_irrefl _ (h e he)

/-- Putting a file into a report replaces what the report has on it, and nothing else. -/
theorem mem_insert (h : r.Ascending) (name : String) (ds : List String)
    (entry : String × List String) :
    entry ∈ r.insert name ds ↔ entry = (name, ds) ∨ entry ∈ r ∧ entry.1 ≠ name := by
  fun_induction Report.insert name ds r with
  | case1 => simp
  | case2 other found rest hlt =>
    have hne := ne_of_forall_lt (h.lt_of_lt_first hlt)
    rw [List.mem_cons]
    exact or_congr_right ⟨fun he => ⟨he, hne entry he⟩, And.left⟩
  | case3 found rest hlt =>
    -- The file is the first one, and as the names ascend it stands nowhere else.
    have hne : ∀ e ∈ rest, e.1 ≠ name := ne_of_forall_lt (List.pairwise_cons.mp h).1
    rw [List.mem_cons]
    refine or_congr_right ⟨fun he => ⟨List.mem_cons_of_mem _ he, hne entry he⟩, ?_⟩
    rintro ⟨he, hname⟩
    rcases List.mem_cons.mp he with rfl | he
    · exact absurd rfl hname
    · exact he
  | case4 other found rest hlt hne ih =>
    have hrest : Ascending rest := (List.pairwise_cons.mp h).2
    rw [List.mem_cons, ih hrest, List.mem_cons]
    constructor
    · rintro (rfl | rfl | ⟨he, hname⟩)
      · exact .inr ⟨.inl rfl, Ne.symm hne⟩
      · exact .inl rfl
      · exact .inr ⟨.inr he, hname⟩
    · rintro (rfl | ⟨rfl | he, hname⟩)
      · exact .inr (.inl rfl)
      · exact .inl rfl
      · exact .inr (.inr ⟨he, hname⟩)

theorem Ascending.insert (h : r.Ascending) (name : String) (ds : List String) :
    (r.insert name ds).Ascending := by
  fun_induction Report.insert name ds r with
  | case1 => exact List.pairwise_singleton _ _
  | case2 other found rest hlt => exact List.pairwise_cons.mpr ⟨h.lt_of_lt_first hlt, h⟩
  | case3 found rest hlt => exact List.pairwise_cons.mpr (List.pairwise_cons.mp h)
  | case4 other found rest hlt hne ih =>
    obtain ⟨hfirst, hrest⟩ := List.pairwise_cons.mp h
    have hgt : other < name := by
      rcases Decidable.em (other < name) with hgt | hge
      · exact hgt
      · exact absurd (String.le_antisymm (String.not_lt.mp hge) (String.not_lt.mp hlt)) hne
    -- Behind the first file stand the others and the new one, whose names all come later.
    refine List.pairwise_cons.mpr ⟨fun e he => ?_, ih hrest⟩
    rcases (mem_insert hrest name ds e).mp he with rfl | ⟨he, -⟩
    · exact hgt
    · exact hfirst e he

end Report

section
variable {read : FileReader} {dialect : Option Dialect} {o : FileOptions} {names : List String}
  {name : String}

theorem scanAll_concat_ok {ds : List String} (h : scan read dialect o name = .ok ds) :
    scanAll read dialect o (names ++ [name]) = (scanAll read dialect o names).insert name ds := by
  rw [scanAll, List.foldl_append, List.foldl_cons, List.foldl_nil, h]
  rfl

theorem scanAll_concat_error {e : Failure} (h : scan read dialect o name = .error e) :
    scanAll read dialect o (names ++ [name]) = scanAll read dialect o names := by
  rw [scanAll, List.foldl_append, List.foldl_cons, List.foldl_nil, h]
  rfl

end

variable (read : FileReader) (dialect : Option Dialect) (o : FileOptions)

theorem ascending_scanAll (names : List String) : (scanAll read dialect o names).Ascending := by
  -- The report grows file by file, so that the induction takes the last file away.
  induction names using List.reverseRecOn with
  | nil => exact List.Pairwise.nil
  | append_singleton names name ih =>
    cases hscan : scan read dialect o name with
    | ok ds =>
      rw [scanAll_concat_ok hscan]
      exact ih.insert name ds
    | error e => rwa [scanAll_concat_error hscan]

/-- A report holds what the files give that can be scanned. -/
theorem mem_scanAll (names : List String) (name : String) (ds : List String) :
    (name, ds) ∈ scanAll read dialect o names ↔
      name ∈ names ∧ scan read dialect o name = .ok ds := by
  induction names using List.reverseRecOn with
  | nil => simp [scanAll]
  | append_singleton names last ih =>
    rw [List.mem_append, List.mem_singleton]
    cases hscan : scan read dialect o last with
    | ok found =>
      rw [scanAll_concat_ok hscan, Report.mem_insert (ascending_scanAll read dialect o names), ih,
        Prod.mk.injEq]
      -- What the report has had on the last file is what it gives now, as each scan is the same.
      constructor
      · rintro (⟨rfl, rfl⟩ | ⟨⟨hmem, hok⟩, -⟩)
        · exact ⟨.inr rfl, hscan⟩
        · exact ⟨.inl hmem, hok⟩
      · rintro ⟨hmem, hok⟩
        by_cases hname : name = last
        · subst hname
          rw [hscan] at hok
          exact .inl ⟨rfl, (Except.ok.inj hok).symm⟩
        · exact .inr ⟨⟨hmem.resolve_right hname, hok⟩, hname⟩
    | error e =>
      rw [scanAll_concat_error hscan, ih]
      refine and_congr_left fun hok => ⟨.inl, fun hmem => hmem.resolve_right fun hname => ?_⟩
      rw [hname, hscan] at hok
      cases hok

/-- The report on several files is made of what each of them gives alone, in the order of their
names. It depends only on which files that can be scanned are among them, neither on their order nor
on repetitions nor on the files that cannot be scanned. The report on two lists of files together has
the entries of both reports. -/
theorem scanAll_unites_files (names : List String) :
    (scanAll read dialect o names).Ascending ∧
    (∀ name ds, (name, ds) ∈ scanAll read dialect o names ↔
      name ∈ names ∧ scan read dialect o name = .ok ds) ∧
    (∀ others, (∀ name ds, scan read dialect o name = .ok ds →
        (name ∈ others ↔ name ∈ names)) →
      scanAll read dialect o others = scanAll read dialect o names) ∧
    ∀ others entry, entry ∈ scanAll read dialect o (names ++ others) ↔
      entry ∈ scanAll read dialect o names ∨ entry ∈ scanAll read dialect o others := by
  refine ⟨ascending_scanAll read dialect o names, mem_scanAll read dialect o names, ?_, ?_⟩
  · intro others hsame
    refine (ascending_scanAll read dialect o others).eq_of_mem_iff
      (ascending_scanAll read dialect o names) ?_
    rintro ⟨name, ds⟩
    rw [mem_scanAll, mem_scanAll]
    exact and_congr_left (hsame name ds)
  · rintro others ⟨name, ds⟩
    rw [mem_scanAll, mem_scanAll, mem_scanAll, List.mem_append, or_and_right]

end CommandLine

end SourceDeps

import SourceDeps.Proofs.Except
import SourceDeps.Proofs.Text.Blank
import SourceDeps.Settings.Variables

namespace SourceDeps

theorem Dialect.ofTag_unknown {s : String} (h : ∀ d : Dialect, s ≠ d.tag) : ofTag s = none := by
  have hfind : all.find? (fun d => d.tag == s) = Option.none := by
    rw [List.find?_eq_none]
    intro d _ hd
    exact h d (beq_iff_eq.mp hd).symm
  rw [ofTag, hfind, Option.getD_none]

/-- A tag stands for the dialect that is called so, and for `none` if no dialect is. -/
theorem Dialect.ofTag_eq_iff {s : String} {d : Dialect} :
    ofTag s = d ↔ s = d.tag ∨ (d = none ∧ ∀ e : Dialect, s ≠ e.tag) := by
  constructor
  · rintro rfl
    by_cases h : ∃ d : Dialect, s = d.tag
    · obtain ⟨d, rfl⟩ := h
      exact .inl (by rw [ofTag_tag])
    · have hne : ∀ d : Dialect, s ≠ d.tag := fun d hd => h ⟨d, hd⟩
      exact .inr ⟨ofTag_unknown hne, hne⟩
  · rintro (rfl | ⟨rfl, hne⟩)
    · exact ofTag_tag d
    · exact ofTag_unknown hne

namespace Settings

open Text

/-- What a switch is, given the value of its variable, if that is set. -/
def SwitchReads (unset : Bool) : Option String → Bool → Prop
  | none, b => b = unset
  | some value, true => canonical value ∈ onWords
  | some value, false => canonical value ∈ offWords

/-- What the dialect is. One that is set but unknown is `none`; a blank value sets no dialect. -/
def DialectReads : Option String → Option Dialect → Prop
  | none, d => d = none
  | some value, none => AllBlank value.toList
  | some value, some d => ¬ AllBlank value.toList ∧
      (trimmed value = d.tag ∨ (d = .none ∧ ∀ e : Dialect, trimmed value ≠ e.tag))

/-- What the surface of Sass is. -/
def SurfaceReads : Option String → Option Surface → Prop
  | none, s => s = none
  | some _, none => False
  | some value, some s => (canonical value, s) ∈ surfaceWords

/-- Each option is what its own variable says. -/
structure FieldsRead (env : Variables) (o : FileOptions) : Prop where
  includeCore : SwitchReads true (env includeCoreVariable) o.includeCore
  dialect : DialectReads (env dialectVariable) o.extract.dialect
  skipLazyLoaded : SwitchReads false (env skipLazyLoadedVariable) o.extract.amd.skipLazyLoaded
  mixedImports : SwitchReads false (env mixedImportsVariable) o.extract.es6.mixedImports
  skipAsyncImports : SwitchReads false (env skipAsyncImportsVariable) o.extract.es6.skipAsyncImports
  surface : SurfaceReads (env surfaceVariable) o.extract.sass.surface

variable {env env' : Variables} {name value : String} {unset b : Bool} {fault : ConfigFault}

/-- No word is for both. -/
theorem notMem_onWords (h : value ∈ offWords) : value ∉ onWords := by
  revert h value
  decide

theorem switch_eq_ok_iff : switch env name unset = .ok b ↔ SwitchReads unset (env name) b := by
  unfold switch
  cases env name with
  | none =>
    rw [Except.ok.injEq]
    exact eq_comm
  | some value =>
    by_cases hon : canonical value ∈ onWords
    · have hoff : canonical value ∉ offWords := fun hoff => notMem_onWords hoff hon
      cases b <;> simp [SwitchReads, hon, hoff]
    · by_cases hoff : canonical value ∈ offWords
      · cases b <;> simp [SwitchReads, hon, hoff]
      · cases b <;> simp [SwitchReads, hon, hoff]

theorem trimmed_eq_empty_iff : trimmed value = "" ↔ AllBlank value.toList := by
  rw [← trim_eq_nil_iff, ← String.toList_inj, trimmed, String.toList_ofList]
  rfl

theorem dialectReads_dialect (env : Variables) : DialectReads (env dialectVariable) (dialect env) := by
  unfold dialect
  cases env dialectVariable with
  | none => rfl
  | some value =>
    by_cases hblank : trimmed value = ""
    · simp only [if_pos hblank]
      exact trimmed_eq_empty_iff.mp hblank
    · simp only [if_neg hblank]
      exact ⟨fun h => hblank (trimmed_eq_empty_iff.mpr h), Dialect.ofTag_eq_iff.mp rfl⟩

/-- The value of the variable leaves one dialect. -/
theorem DialectReads.eq {set : Option String} {d d' : Option Dialect} (h : DialectReads set d)
    (h' : DialectReads set d') : d = d' := by
  match set, d, d' with
  | none, _, _ => exact Eq.trans h (Eq.symm h')
  | some _, none, none => rfl
  | some _, none, some _ => exact absurd h h'.1
  | some _, some _, none => exact absurd h' h.1
  | some _, some _, some _ =>
    rw [← Dialect.ofTag_eq_iff.mpr h.2, ← Dialect.ofTag_eq_iff.mpr h'.2]

/-- A word for a surface stands for one surface only. -/
theorem lookup_surfaceWords {s : Surface} :
    surfaceWords.lookup value = some s ↔ (value, s) ∈ surfaceWords := by
  simp only [surfaceWords, List.lookup_cons, List.lookup_nil, List.mem_cons, Prod.mk.injEq,
    List.not_mem_nil, or_false]
  grind

theorem surface_eq_ok_iff {s : Option Surface} :
    surface env = .ok s ↔ SurfaceReads (env surfaceVariable) s := by
  unfold surface
  cases env surfaceVariable with
  | none =>
    rw [Except.ok.injEq]
    exact eq_comm
  | some value =>
    have hword : ∀ t, surfaceWords.lookup (canonical value) = some t ↔
        (canonical value, t) ∈ surfaceWords := fun t => lookup_surfaceWords
    dsimp only
    generalize surfaceWords.lookup (canonical value) = found at hword ⊢
    cases s with
    | none => cases found <;> simp [SurfaceReads]
    | some s =>
      rw [SurfaceReads, ← hword]
      cases found <;> simp

/-- The surfaces of Sass are no others. -/
theorem validate_of_surfaceReads {o : FileOptions} {set : Option String}
    (h : SurfaceReads set o.extract.sass.surface) : validate o = .ok () := by
  have hne : o.extract.sass.surface ≠ some .stylus := by
    intro hstylus
    rw [hstylus] at h
    cases set with
    | none => cases h
    | some value => simp [SurfaceReads, surfaceWords] at h
  exact if_neg hne

/-- Options are read exactly if each is what its own variable says. -/
theorem ofVariables_eq_ok_iff {o : FileOptions} : ofVariables env = .ok o ↔ FieldsRead env o := by
  simp only [ofVariables, bind_eq_ok]
  constructor
  · rintro ⟨core, hcore, skipLazy, hlazy, mixed, hmixed, skipAsync, hasync, s, hsurface, _, _, ho⟩
    cases ho
    exact ⟨switch_eq_ok_iff.mp hcore, dialectReads_dialect env, switch_eq_ok_iff.mp hlazy,
      switch_eq_ok_iff.mp hmixed, switch_eq_ok_iff.mp hasync, surface_eq_ok_iff.mp hsurface⟩
  · intro h
    have hvalid : validate o = .ok () := validate_of_surfaceReads h.surface
    have hdialect : o.extract.dialect = dialect env := h.dialect.eq (dialectReads_dialect env)
    obtain ⟨core, ⟨d, ⟨skipLazy⟩, ⟨mixed, skipAsync⟩, ⟨s⟩⟩⟩ := o
    obtain rfl : d = dialect env := hdialect
    exact ⟨core, switch_eq_ok_iff.mpr h.includeCore, skipLazy,
      switch_eq_ok_iff.mpr h.skipLazyLoaded, mixed, switch_eq_ok_iff.mpr h.mixedImports, skipAsync,
      switch_eq_ok_iff.mpr h.skipAsyncImports, s, surface_eq_ok_iff.mpr h.surface, (), hvalid, rfl⟩

/-- The variables that hold switches. -/
def switchVariables : List String :=
  [includeCoreVariable, skipLazyLoadedVariable, mixedImportsVariable, skipAsyncImportsVariable]

/-- A value that can be read from a variable. From that of the dialect any value can be. -/
def Reads (name value : String) : Prop :=
  (name ∈ switchVariables → canonical value ∈ onWords ∨ canonical value ∈ offWords) ∧
    (name = surfaceVariable → ∃ s, (canonical value, s) ∈ surfaceWords)

/-- A variable is not set, or to a value that can be read. -/
def IsReadable (env : Variables) (name : String) : Prop :=
  ∀ value, env name = some value → Reads name value

/-- What is said of a value that cannot be read. -/
def faultIn (name value : String) : ConfigFault :=
  if name = surfaceVariable then .notSassSurface name (canonical value)
  else .notBoolean name (canonical value)

/-- The message begins with the name of the variable. -/
theorem faultIn_message (name value : String) :
    name.toList <+: (faultIn name value).message.toList := by
  unfold faultIn
  split <;> simp [ConfigFault.message, String.toList_append]

/-- The fault is that of the first of some variables that cannot be read, and names it. -/
def FirstFault (env : Variables) (names : List String) (fault : ConfigFault) : Prop :=
  ∃ before name after value, names = before ++ name :: after ∧ (∀ n ∈ before, IsReadable env n) ∧
    env name = some value ∧ ¬ Reads name value ∧ fault = faultIn name value ∧
    name.toList <+: fault.message.toList

/-- A reading of some variables fails at the first of them that cannot be read, and only there. -/
def FailsAtFirst {α : Type} (env : Variables) (names : List String) :
    Except ConfigFault α → Prop
  | .ok _ => ∀ name ∈ names, IsReadable env name
  | .error fault => FirstFault env names fault

theorem isReadable_of_unset (h : env name = none) : IsReadable env name := by
  intro value hvalue
  rw [h] at hvalue
  cases hvalue

theorem isReadable_of_reads (hset : env name = some value) (h : Reads name value) :
    IsReadable env name := by
  intro value' hvalue
  rw [hset, Option.some.injEq] at hvalue
  exact hvalue ▸ h

theorem isReadable_dialect (env : Variables) : IsReadable env dialectVariable := by
  have hswitch : dialectVariable ∉ switchVariables := by decide
  have hsurface : dialectVariable ≠ surfaceVariable := by decide
  intro value _
  exact ⟨fun h => absurd h hswitch, fun h => absurd h hsurface⟩

theorem FirstFault.here (hset : env name = some value) (hnot : ¬ Reads name value)
    (names : List String) : FirstFault env (name :: names) (faultIn name value) :=
  ⟨[], name, names, value, rfl, List.forall_mem_nil _, hset, hnot, rfl, faultIn_message name value⟩

theorem FirstFault.append {names : List String} (h : FirstFault env names fault)
    (more : List String) : FirstFault env (names ++ more) fault := by
  obtain ⟨before, n, after, value, rfl, hbefore, hrest⟩ := h
  exact ⟨before, n, after ++ more, value, by simp, hbefore, hrest⟩

theorem FirstFault.later {names : List String} (hname : IsReadable env name)
    (h : FirstFault env names fault) : FirstFault env (name :: names) fault := by
  obtain ⟨before, n, after, value, rfl, hbefore, hrest⟩ := h
  refine ⟨name :: before, n, after, value, rfl, ?_, hrest⟩
  intro m hm
  rcases List.mem_cons.mp hm with rfl | hm
  · exact hname
  · exact hbefore m hm

namespace FailsAtFirst

variable {α β : Type} {names : List String} {x : Except ConfigFault α}

/-- A variable that can be read may be put in front. -/
theorem cons (hname : IsReadable env name) (h : FailsAtFirst env names x) :
    FailsAtFirst env (name :: names) x := by
  cases x with
  | ok a => exact List.forall_mem_cons.mpr ⟨hname, h⟩
  | error fault => exact FirstFault.later hname h

/-- One variable is read, and then others. -/
theorem bind {f : α → Except ConfigFault β} (hx : FailsAtFirst env [name] x)
    (hf : ∀ a, x = .ok a → FailsAtFirst env names (f a)) :
    FailsAtFirst env (name :: names) (x >>= f) := by
  cases x with
  | ok a => exact cons (hx name List.mem_cons_self) (hf a rfl)
  | error fault => exact FirstFault.append hx names

theorem switch (hname : name ∈ switchVariables) (unset : Bool) :
    FailsAtFirst env [name] (switch env name unset) := by
  have hother : name ≠ surfaceVariable := by
    rintro rfl
    revert hname
    decide
  cases hset : env name with
  | none =>
    have hok : Settings.switch env name unset = .ok unset := by rw [Settings.switch, hset]
    rw [hok]
    exact List.forall_mem_singleton.mpr (isReadable_of_unset hset)
  | some value =>
    by_cases hreads : canonical value ∈ onWords ∨ canonical value ∈ offWords
    · have hok : ∃ b, Settings.switch env name unset = .ok b := by
        rcases hreads with hon | hoff
        · exact ⟨true, switch_eq_ok_iff.mpr (by rw [hset]; exact hon)⟩
        · exact ⟨false, switch_eq_ok_iff.mpr (by rw [hset]; exact hoff)⟩
      obtain ⟨b, hb⟩ := hok
      rw [hb]
      have hvalue : Reads name value := ⟨fun _ => hreads, fun h => absurd h hother⟩
      exact List.forall_mem_singleton.mpr (isReadable_of_reads hset hvalue)
    · obtain ⟨hon, hoff⟩ := not_or.mp hreads
      have herror : Settings.switch env name unset = .error (faultIn name value) := by
        rw [Settings.switch, hset, faultIn, if_neg hother]
        simp only [if_neg hon, if_neg hoff]
      rw [herror]
      exact FirstFault.here hset (fun h => hreads (h.1 hname)) []

theorem surface (env : Variables) : FailsAtFirst env [surfaceVariable] (surface env) := by
  have hother : surfaceVariable ∉ switchVariables := by decide
  unfold Settings.surface
  cases hset : env surfaceVariable with
  | none => exact List.forall_mem_singleton.mpr (isReadable_of_unset hset)
  | some value =>
    have hword : ∀ s, surfaceWords.lookup (canonical value) = some s ↔
        (canonical value, s) ∈ surfaceWords := fun s => lookup_surfaceWords
    dsimp only
    generalize surfaceWords.lookup (canonical value) = found at hword ⊢
    cases found with
    | some s =>
      have hreads : Reads surfaceVariable value :=
        ⟨fun h => absurd h hother, fun _ => ⟨s, (hword s).mp rfl⟩⟩
      exact List.forall_mem_singleton.mpr (isReadable_of_reads hset hreads)
    | none =>
      have hnot : ¬ Reads surfaceVariable value := by
        intro h
        obtain ⟨s, hs⟩ := h.2 rfl
        cases (hword s).mpr hs
      exact FirstFault.here hset hnot []

/-- The options are read variable by variable, and nothing is wrong with them afterwards. -/
theorem ofVariables (env : Variables) : FailsAtFirst env variableNames (ofVariables env) := by
  refine bind (switch (by decide) true) fun core _ => ?_
  refine cons (isReadable_dialect env) ?_
  refine bind (switch (by decide) false) fun skipLazy _ => ?_
  refine bind (switch (by decide) false) fun mixed _ => ?_
  refine bind (switch (by decide) false) fun skipAsync _ => ?_
  refine bind (surface env) fun s hs => ?_
  have hvalid : validate ⟨core, ⟨dialect env, ⟨skipLazy⟩, ⟨mixed, skipAsync⟩, ⟨s⟩⟩⟩ = .ok () :=
    validate_of_surfaceReads (surface_eq_ok_iff.mp hs)
  simp only [hvalid]
  exact List.forall_mem_nil _

end FailsAtFirst

/-- A value with white space around it, and with letters in another case. -/
def Restyled (value value' : String) : Prop :=
  ∃ before cs after, AllBlank before ∧ AllBlank after ∧ value'.toList = before ++ (cs ++ after) ∧
    cs.map lowerAscii = value.toList.map lowerAscii

/-- The variables are the same but for the style of switches and of the surface. -/
structure Restyles (env env' : Variables) : Prop where
  dialect : env' dialectVariable = env dialectVariable
  others : ∀ name ∈ variableNames, name ≠ dialectVariable →
    Option.Rel Restyled (env name) (env' name)

theorem Restyled.canonical_eq {value' : String} (h : Restyled value value') :
    canonical value' = canonical value := by
  obtain ⟨before, cs, after, hbefore, hafter, hvalue, hcase⟩ := h
  have hsame : (trim value'.toList).map lowerAscii = (trim value.toList).map lowerAscii := by
    rw [hvalue, trim_padded hbefore hafter, ← trim_map_lowerAscii, hcase, trim_map_lowerAscii]
  simp only [canonical, lowered, trimmed, String.toList_ofList, hsame]

theorem switch_restyled (h : Option.Rel Restyled (env name) (env' name)) (unset : Bool) :
    switch env' name unset = switch env name unset := by
  unfold switch
  generalize env name = set, env' name = set' at h
  cases h with
  | none => rfl
  | some h => simp only [h.canonical_eq]

theorem surface_restyled (h : Option.Rel Restyled (env surfaceVariable) (env' surfaceVariable)) :
    surface env' = surface env := by
  unfold surface
  generalize env surfaceVariable = set, env' surfaceVariable = set' at h
  cases h with
  | none => rfl
  | some h => simp only [h.canonical_eq]

/-- The style of the values does not count. -/
theorem ofVariables_restyled (h : Restyles env env') : ofVariables env' = ofVariables env := by
  have hdialect : dialect env' = dialect env := by rw [dialect, dialect, h.dialect]
  have hcore := switch_restyled (h.others includeCoreVariable (by decide) (by decide)) true
  have hlazy := switch_restyled (h.others skipLazyLoadedVariable (by decide) (by decide)) false
  have hmixed := switch_restyled (h.others mixedImportsVariable (by decide) (by decide)) false
  have hasync := switch_restyled (h.others skipAsyncImportsVariable (by decide) (by decide)) false
  have hsurface := surface_restyled (h.others surfaceVariable (by decide) (by decide))
  simp only [ofVariables, hdialect, hcore, hlazy, hmixed, hasync, hsurface]

/-- Options are read from variables exactly if each that is set can be read. Then each option is
what its own variable says, and the options are valid; otherwise the fault is that of the first
variable that cannot be read, and its message begins with the name. The case of letters and white
space around the values of switches and of the surface change nothing. -/
theorem ofVariables_reads (env : Variables) :
    ((∃ o, ofVariables env = .ok o) ↔ ∀ name ∈ variableNames, IsReadable env name) ∧
      (∀ o, ofVariables env = .ok o ↔ FieldsRead env o) ∧
      (∀ o, ofVariables env = .ok o → validate o = .ok ()) ∧
      (∀ fault, ofVariables env = .error fault → FirstFault env variableNames fault) ∧
      ∀ env', Restyles env env' → ofVariables env' = ofVariables env := by
  have hfirst : FailsAtFirst env variableNames (ofVariables env) := .ofVariables env
  refine ⟨⟨?_, ?_⟩, fun o => ofVariables_eq_ok_iff, ?_, ?_, fun env' => ofVariables_restyled⟩
  · rintro ⟨o, ho⟩
    rw [ho] at hfirst
    exact hfirst
  · intro hreadable
    cases h : ofVariables env with
    | ok o => exact ⟨o, rfl⟩
    | error fault =>
      rw [h] at hfirst
      obtain ⟨before, name, after, value, hsplit, -, hset, hnot, -⟩ := hfirst
      have hname : name ∈ variableNames := by
        rw [hsplit]
        exact List.mem_append_right before List.mem_cons_self
      exact absurd (hreadable name hname value hset) hnot
  · intro o ho
    exact validate_of_surfaceReads (ofVariables_eq_ok_iff.mp ho).surface
  · intro fault hfault
    rw [hfault] at hfirst
    exact hfirst

/-- Variables with their values, as they are listed. -/
def listed (values : List (String × String)) : Variables := fun name => values.lookup name

def plainVariables : Variables :=
  listed [(includeCoreVariable, "no"), (dialectVariable, " coffee"), (skipLazyLoadedVariable, ""),
    (mixedImportsVariable, "on"), (surfaceVariable, "sass")]

def styledVariables : Variables :=
  listed [(includeCoreVariable, "No\n"), (dialectVariable, " coffee"),
    (skipLazyLoadedVariable, "\t "), (mixedImportsVariable, "\u00a0ON"), (surfaceVariable, "sASS")]

/-- Switches and the surface in another style, and a dialect that there is none of. -/
theorem styledVariables_read :
    ofVariables styledVariables =
        .ok ⟨false, ⟨some .none, ⟨false⟩, ⟨true, false⟩, ⟨some .indented⟩⟩⟩ ∧
      ofVariables styledVariables = ofVariables plainVariables := by
  have hdialect : dialect styledVariables = some .none := by decide +kernel
  have hrestyled : ∀ {value value' : String} (before cs after : List Char), AllBlank before →
      AllBlank after → value'.toList = before ++ (cs ++ after) →
      cs.map lowerAscii = value.toList.map lowerAscii →
      Option.Rel Restyled (some value) (some value') :=
    fun before cs after hbefore hafter hvalue hcase =>
      .some ⟨before, cs, after, hbefore, hafter, hvalue, hcase⟩
  have hstyled : Restyles plainVariables styledVariables := by
    refine ⟨rfl, fun name hname hne => ?_⟩
    simp only [variableNames, List.mem_cons, List.not_mem_nil, or_false] at hname
    rcases hname with rfl | rfl | rfl | rfl | rfl | rfl
    · exact hrestyled [] ['N', 'o'] ['\n'] (by decide) (by decide) (by decide) (by decide)
    · exact absurd rfl hne
    · exact hrestyled ['\t', ' '] [] [] (by decide) (by decide) (by decide) (by decide)
    · exact hrestyled ['\u00a0'] ['O', 'N'] [] (by decide) (by decide) (by decide) (by decide)
    · exact .none
    · exact hrestyled [] ['s', 'A', 'S', 'S'] [] (by decide) (by decide) (by decide) (by decide)
  refine ⟨((ofVariables_reads styledVariables).2.1 _).mpr ⟨?_, ?_, ?_, ?_, ?_, ?_⟩,
    (ofVariables_reads plainVariables).2.2.2.2 styledVariables hstyled⟩
  · exact (by decide +kernel : canonical "No\n" ∈ offWords)
  · exact hdialect ▸ dialectReads_dialect styledVariables
  · exact (by decide +kernel : canonical "\t " ∈ offWords)
  · exact (by decide +kernel : canonical "\u00a0ON" ∈ onWords)
  · rfl
  · exact (by decide +kernel : (canonical "sASS", Surface.indented) ∈ surfaceWords)

example : ofVariables (listed [(surfaceVariable, "less"), (mixedImportsVariable, " Maybe")]) =
    .error (.notBoolean mixedImportsVariable "maybe") := by
  rfl

end Settings

end SourceDeps

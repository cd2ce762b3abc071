import SourceDeps.Dialect

namespace SourceDeps.CommandLine

inductive Switch where
  | noCore
  | amdSkipLazyLoaded
  | es6MixedImports
  | es6SkipAsyncImports
  deriving DecidableEq, Repr

/-- The options that take a value. -/
inductive Setting where
  | dialect
  | config
  deriving DecidableEq, Repr

/-- What the command is asked for. -/
structure Arguments where
  files : List String := []
  dialect : Option String := none
  config : Option String := none
  switches : List Switch := []
  deriving DecidableEq, Repr

/-- Why no scan is made: the arguments are bad, or something else is asked for. -/
inductive Refusal where
  | usage
  | help
  | version
  deriving DecidableEq, Repr

/-- What a name of an option stands for. -/
inductive Meaning where
  | switch (s : Switch)
  | setting (s : Setting)
  | refusal (r : Refusal)

/-- The long names. -/
def longNames : List (String × Meaning) := [
  ("type", .setting .dialect),
  ("config", .setting .config),
  ("no-core", .switch .noCore),
  ("amd-skip-lazy-loaded", .switch .amdSkipLazyLoaded),
  ("es6-mixed-imports", .switch .es6MixedImports),
  ("es6-skip-async-imports", .switch .es6SkipAsyncImports),
  ("help", .refusal .help),
  ("version", .refusal .version)]

/-- The names of one letter. -/
def shortNames : List (Char × Meaning) := [
  ('t', .setting .dialect),
  ('h', .refusal .help),
  ('V', .refusal .version)]

namespace Arguments

def withSwitch (a : Arguments) (s : Switch) : Except Refusal Arguments :=
  if s ∈ a.switches then .error .usage else .ok { a with switches := a.switches ++ [s] }

/-- Sets an option. The name of a file is not empty. -/
def withSetting (a : Arguments) (s : Setting) (value : String) : Except Refusal Arguments :=
  match s with
  | .dialect =>
    if a.dialect.isSome then .error .usage else .ok { a with dialect := some value }
  | .config =>
    if a.config.isSome || value.isEmpty then .error .usage else .ok { a with config := some value }

def withFile (a : Arguments) (name : String) : Except Refusal Arguments :=
  if name.isEmpty then .error .usage else .ok { a with files := a.files ++ [name] }

end Arguments

/-- An argument by its form. -/
inductive Form where
  | separator
  | long (name : String) (value : Option String)
  | short (letters : List Char)
  | plain

def Form.of (argument : String) : Form :=
  match argument.toList with
  | ['-', '-'] => .separator
  | '-' :: '-' :: cs =>
    match cs.span (· ≠ '=') with
    | (name, _ :: value) => .long (String.ofList name) (some (String.ofList value))
    | (name, []) => .long (String.ofList name) none
  | '-' :: c :: cs => .short (c :: cs)
  | _ => .plain

/-- What the letters after one dash add; an option may be left that still needs its value. -/
def readLetters : Arguments → List Char → Except Refusal (Arguments × Option Setting)
  | a, [] => .ok (a, none)
  | a, c :: cs =>
    match shortNames.lookup c with
    | some (.setting s) =>
      match cs with
      | [] => .ok (a, some s)
      | '=' :: cs => (a.withSetting s (String.ofList cs)).map (·, none)
      | cs => (a.withSetting s (String.ofList cs)).map (·, none)
    | some (.switch s) => do readLetters (← a.withSwitch s) cs
    | some (.refusal r) => .error r
    | none => .error .usage

/-- What a long name adds; an option may be left that still needs its value. -/
def readLong (a : Arguments) (name : String) (value : Option String) :
    Except Refusal (Arguments × Option Setting) :=
  match longNames.lookup name, value with
  | some (.setting s), some value => (a.withSetting s value).map (·, none)
  | some (.setting s), none => .ok (a, some s)
  | some (.switch s), none => (a.withSwitch s).map (·, none)
  | some (.refusal r), none => .error r
  | _, _ => .error .usage

/-- Reads the arguments one after the other. `needed` is an option that still needs its value. -/
def readAll : Arguments → Option Setting → List String → Except Refusal Arguments
  | _, some _, [] => .error .usage
  | a, none, [] => if a.files.isEmpty then .error .usage else .ok a
  | a, needed, argument :: rest =>
    match Form.of argument, needed with
    | .plain, none => do readAll (← a.withFile argument) none rest
    | .plain, some s => do readAll (← a.withSetting s argument) none rest
    | _, some _ => .error .usage
    | .separator, none => do
      let a ← rest.foldlM Arguments.withFile a
      if a.files.isEmpty then .error .usage else .ok a
    | .long name value, none => do
      let (a, needed) ← readLong a name value
      readAll a needed rest
    | .short letters, none => do
      let (a, needed) ← readLetters a letters
      readAll a needed rest

def Arguments.read (arguments : List String) : Except Refusal Arguments := readAll {} none arguments

end SourceDeps.CommandLine

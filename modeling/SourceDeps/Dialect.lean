import SourceDeps.Text.Blank

namespace SourceDeps

/-- A module dialect. `less` can be guessed from a file name but is not read; `none` is what is left
when no module construct is found. -/
inductive Dialect where
  | commonJs
  | amd
  | es6
  | sass
  | stylus
  | less
  | none
  deriving DecidableEq, Repr, Inhabited

namespace Dialect

/-- The tag by which a dialect is called. -/
def tag : Dialect → String
  | commonJs => "commonjs"
  | amd => "amd"
  | es6 => "es6"
  | sass => "sass"
  | stylus => "stylus"
  | less => "less"
  | none => "none"

def all : List Dialect := [commonJs, amd, es6, sass, stylus, less, none]

/-- The dialect of a tag; `none` if no dialect is called so. -/
def ofTag (s : String) : Dialect := (all.find? fun d => d.tag == s).getD none

/-- The dialect that a file extension hints at, in any case of its letters: only stylesheets are
known by their extensions. -/
def ofExtension? (extension : String) : Option Dialect :=
  match Text.lowered extension with
  | "scss" | "sass" => some sass
  | "styl" => some stylus
  | "less" => some less
  | _ => Option.none

def isScript : Dialect → Bool
  | commonJs | amd | es6 => true
  | _ => false

theorem ofTag_tag (d : Dialect) : ofTag d.tag = d := by cases d <;> rfl

end Dialect

end SourceDeps

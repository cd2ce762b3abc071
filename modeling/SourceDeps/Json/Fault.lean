namespace SourceDeps.Json

/-- Why reading stops: the text is not JSON, or it ends too early. -/
inductive Stop where
  | malformed
  | ended
  deriving DecidableEq, Repr, Inhabited

/-- A value that does not fit, as it is described. Numbers with a fraction or an exponent and those
too large come with their text. -/
inductive Found where
  | null
  | boolean (b : Bool)
  | integer (n : Int)
  | floating (text : String)
  | string (s : String)
  | sequence
  | map
  deriving DecidableEq, Repr

def Found.message : Found → String
  | null => "null"
  | boolean b => "boolean `" ++ toString b ++ "`"
  | integer n => "integer `" ++ toString n ++ "`"
  | floating text => "floating point `" ++ text ++ "`"
  | string s => "string \"" ++ s ++ "\""
  | sequence => "sequence"
  | map => "map"

/-- What is wrong with the data of a JSON text. -/
inductive Mismatch where
  | type (found : Found) (expected : String)
  | value (found : Found) (expected : String)
  | length (count : Nat) (expected : String)
  | duplicateField (name : String)
  | missingField (name : String)
  | unknownVariant (name : String) (known : List String)
  deriving DecidableEq, Repr

/-- Names as they are listed in a message. -/
def quotedNames (names : List String) : String :=
  ", ".intercalate (names.map fun n => "`" ++ n ++ "`")

def Mismatch.message : Mismatch → String
  | type found expected => "invalid type: " ++ found.message ++ ", expected " ++ expected
  | value found expected => "invalid value: " ++ found.message ++ ", expected " ++ expected
  | length count expected => "invalid length " ++ toString count ++ ", expected " ++ expected
  | duplicateField name => "duplicate field `" ++ name ++ "`"
  | missingField name => "missing field `" ++ name ++ "`"
  | unknownVariant name known =>
    "unknown variant `" ++ name ++ "`, expected one of " ++ quotedNames known

/-- Why a JSON text cannot be read as a value of some type. -/
inductive Fault where
  | stop (why : Stop)
  | data (why : Mismatch)
  deriving DecidableEq, Repr

/-- The words for a fault. Those for a text that is not JSON are not fixed. -/
def Fault.message : Fault → String
  | stop .malformed => "malformed text"
  | stop .ended => "text ends too early"
  | data m => m.message

end SourceDeps.Json

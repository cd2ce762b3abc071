import SourceDeps.Json.Fault

/-! A draft keeps what is wrong with a text at the place where it stands, since it depends on the
use of a value whether the fault is met: one that is passed over may hold a number that is too large
or half of a surrogate pair. Nothing is read beyond a fault that cannot be passed over. -/

namespace SourceDeps.Json

/-- A number: whole and within 64 bits, or any other, of which only the text matters. -/
inductive Number where
  | integer (n : Int)
  | floating (text : String)
  deriving DecidableEq, Repr

def Number.found : Number → Found
  | integer n => .integer n
  | floating text => .floating text

/-- The end of an array or object: closed, or not; then also whether a comma was read before. -/
inductive Tail where
  | closed
  | broken (comma : Bool) (why : Stop)
  deriving DecidableEq, Repr

/-- What prevents passing over an end. -/
def Tail.stop? : Tail → Option Stop
  | closed => none
  | broken _ why => some why

/-- A value as far as it can be read. Numbers and strings say how they read when they are used and
what prevents passing over them. What stands for the name of a member may be any value. -/
inductive Draft where
  | null
  | boolean (b : Bool)
  | number (value : Except Stop Number) (skip : Option Stop)
  | string (value : Except Stop String) (skip : Option Stop)
  | array (items : List Draft) (tail : Tail)
  | object (members : List (Draft × Draft)) (tail : Tail)
  | nothing (why : Stop)
  deriving Inhabited

namespace Draft

/-- What prevents passing over a value. -/
def stop? : Draft → Option Stop
  | null | boolean _ => none
  | number _ skip | string _ skip => skip
  | array _ tail | object _ tail => tail.stop?
  | nothing why => some why

/-- Why a value is not what is expected: because it cannot be read, or because of what it is. -/
def mismatch (d : Draft) (expected : String) : Fault :=
  match d with
  | null => .data (.type .null expected)
  | boolean b => .data (.type (.boolean b) expected)
  | number (.ok n) _ => .data (.type n.found expected)
  | string (.ok s) _ => .data (.type (.string s) expected)
  | array _ _ => .data (.type .sequence expected)
  | object _ _ => .data (.type .map expected)
  | number (.error why) _ | string (.error why) _ | nothing why => .stop why

/-- How deep arrays and objects may stand in each other in a value that is kept as a whole. -/
def maxDepth : Nat := 128

mutual

/-- What is wrong in a value that is kept as a whole, if it stands below `depth` arrays and
objects. -/
def fault? (depth : Nat) : Draft → Option Stop
  | null | boolean _ => none
  | number (.ok _) _ | string (.ok _) _ => none
  | number (.error why) _ | string (.error why) _ | nothing why => some why
  | array items tail =>
    if maxDepth ≤ depth + 1 then some .malformed else itemsFault? (depth + 1) tail items
  | object members tail =>
    if maxDepth ≤ depth + 1 then some .malformed else membersFault? (depth + 1) tail members

def itemsFault? (depth : Nat) (tail : Tail) : List Draft → Option Stop
  | [] => tail.stop?
  | d :: ds => (d.fault? depth).or (itemsFault? depth tail ds)

def membersFault? (depth : Nat) (tail : Tail) : List (Draft × Draft) → Option Stop
  | [] => tail.stop?
  | (name, d) :: ds =>
    match name with
    | string (.ok _) _ => (d.fault? depth).or (membersFault? depth tail ds)
    | string (.error why) _ => some why
    | _ => some .malformed

end

end Draft

end SourceDeps.Json

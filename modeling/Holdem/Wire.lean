import Mathlib.Data.Rat.Floor
import Holdem.Cards

/-!
Values as the wire carries them: what Python's `json` reads and writes, and what the built-in
functions make of a value that may be anything.
-/

namespace Holdem

/-- A number with a point or an exponent. One too large for a float is read as infinite. -/
inductive JsonFloat where
  | finite (value : ℚ)
  | infinite (negative : Bool)
  | nan
  deriving DecidableEq

inductive Json where
  | null
  | bool (value : Bool)
  | int (value : ℤ)
  | float (value : JsonFloat)
  | str (text : String)
  | arr (items : List Json)
  | obj (fields : List (String × Json))

abbrev Message := List (String × Json)

namespace Json

/-- `int(value)`. -/
def toInt (parse : String → Option ℤ) : Json → Except PyError ℤ
  | .bool value => .ok (if value then 1 else 0)
  | .int value => .ok value
  | .float (.finite value) => .ok (if 0 ≤ value then ⌊value⌋ else ⌈value⌉)
  | .float (.infinite _) => .error .overflowError
  | .float .nan => .error (.valueError "cannot convert float NaN to integer")
  | .str text => match parse text with
    | some value => .ok value
    | none => .error (.valueError "invalid literal for int() with base 10")
  | .null | .arr _ | .obj _ => .error .typeError

def number : Json → Option ℚ
  | .bool value => some (if value then 1 else 0)
  | .int value => some value
  | .float (.finite value) => some value
  | _ => none

/-- `len(value)`. -/
def len : Json → Except PyError ℕ
  | .str text => .ok text.length
  | .arr items => .ok items.length
  | .obj fields => .ok fields.length
  | _ => .error .typeError

def items : Json → Except PyError (List Json)
  | .str text => .ok (text.toList.map fun c => .str (String.singleton c))
  | .arr items => .ok items
  | .obj fields => .ok (fields.map fun field => .str field.1)
  | _ => .error .typeError

/-- `value[k]` for a position. -/
def item (k : ℕ) : Json → Except PyError Json
  | .str text => match text.toList[k]? with
    | some c => .ok (.str (String.singleton c))
    | none => .error .indexError
  | .arr items => match items[k]? with
    | some value => .ok value
    | none => .error .indexError
  | .obj _ => .error .keyError
  | _ => .error .typeError

/-- The text `bytes.fromhex` asks for. -/
def text : Json → Except PyError String
  | .str text => .ok text
  | _ => .error .typeError

end Json

/-- `msg[name]`. -/
def Message.field (msg : Message) (name : String) : Except PyError Json :=
  match msg.lookup name with
  | some value => .ok value
  | none => .error .keyError

/-- `msg.get(name)`. -/
def Message.get (msg : Message) (name : String) : Json := (msg.lookup name).getD .null

/-- `except (KeyError, ValueError, TypeError)`. -/
def PyError.isMalformed : PyError → Bool
  | .keyError | .typeError => true
  | e => e.isValueError

end Holdem

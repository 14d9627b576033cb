import CodeConverter.Number.Digits
import CodeConverter.Text.Encoding

/-!
# JSON values

Integers and floating point numbers are kept apart, since they print differently. A string with an
unpaired half of a surrogate pair is no text and has a constructor of its own.
-/

namespace CodeConverter

/-- A JSON value. The fields of an object stand in the order in which they were written first. -/
inductive Json where
  | null
  | bool (value : Bool)
  | int (value : Int)
  | float (value : Binary)
  | string (text : Text)
  | unpaired (codes : Codes)
  | array (items : List Json)
  | object (fields : List (Text × Json))

namespace Json

/-- A string stands for the JSON string with its characters. -/
instance : Coe String Json := ⟨fun s => .string s.toList⟩

/-- The first field with a name. -/
def field? (name : Text) : List (Text × Json) → Option Json
  | [] => none
  | (key, value) :: rest => if key = name then some value else field? name rest

/-- The fields with one set: an earlier value of the same name is replaced in its place. -/
def setField (name : Text) (value : Json) : List (Text × Json) → List (Text × Json)
  | [] => [(name, value)]
  | (key, old) :: rest =>
    if key = name then (key, value) :: rest else (key, old) :: setField name value rest

/-- Whether a value counts as absent: null, false, zero, and empty strings, arrays and objects. -/
def isBlank : Json → Bool
  | .null => true
  | .bool b => !b
  | .int n => n = 0
  | .float x => x.isZero
  | .string t => t.isEmpty
  | .unpaired _ => false
  | .array items => items.isEmpty
  | .object fields => fields.isEmpty

/-- A text, or null. -/
def ofText? : Option Text → Json
  | none => .null
  | some t => .string t

/-- The string with some code points. -/
def ofCodes (codes : Codes) : Json :=
  match Text.ofCodes? codes with
  | some t => .string t
  | none => .unpaired codes

/-- A list of texts. -/
def ofTexts (texts : List Text) : Json :=
  .array (texts.map .string)

/-- The code points of a text give the string with this text. -/
theorem ofCodes_codes (t : Text) : ofCodes (Text.codes t) = .string t := by
  simp [ofCodes, Text.ofCodes?_codes]

end Json

end CodeConverter

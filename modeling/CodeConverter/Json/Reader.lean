import CodeConverter.Json.Value

/-!
# Reading JSON

The reader accepts the standard grammar and the words `NaN`, `Infinity` and `-Infinity`. Control
characters in strings are refused, the last of several fields of one name counts, and an integer
has at most `Text.digitLimit` digits.
-/

namespace CodeConverter.Json

open Text

/-- White space between the parts of a JSON text. -/
def isSpace (c : Char) : Bool :=
  c = ' ' || c = '\t' || c = '\n' || c = '\r'

/-- The text after its blanks. -/
def skipSpace (t : Text) : Text :=
  t.dropWhile isSpace

/-- The number written by four hexadecimal digits. -/
def hexNumber? (a b c d : Char) : Option Nat := do
  return (((← hexValue? a) * 16 + (← hexValue? b)) * 16 + (← hexValue? c)) * 16 + (← hexValue? d)

/-- The character that an escape stands for. -/
def escaped? (c : Char) : Option Char :=
  match c with
  | '\x22' => some '\x22'
  | '\\' => some '\\'
  | '/' => some '/'
  | 'b' => some '\x08'
  | 'f' => some '\x0c'
  | 'n' => some '\n'
  | 'r' => some '\r'
  | 't' => some '\t'
  | _ => none

/-- What one escape stands for: a character, or half of a surrogate pair. -/
inductive Unit16 where
  | char (c : Char)
  | high (code : Nat)
  | low (code : Nat)

/-- The meaning of a four digit escape. -/
def Unit16.ofNat (code : Nat) : Unit16 :=
  if 0xd800 ≤ code && code ≤ 0xdbff then .high code
  else if 0xdc00 ≤ code && code ≤ 0xdfff then .low code
  else .char (Char.ofNat code)

/-- The units of a string up to its closing quote, and the text after it. -/
def readUnits : Text → Option (List Unit16 × Text)
  | [] => none
  | '\x22' :: t => some ([], t)
  | '\\' :: 'u' :: a :: b :: c :: d :: t => do
    let code ← hexNumber? a b c d
    let (units, rest) ← readUnits t
    return (.ofNat code :: units, rest)
  | '\\' :: c :: t => do
    let c ← escaped? c
    let (units, rest) ← readUnits t
    return (.char c :: units, rest)
  | c :: t =>
    if c.toNat < 0x20 || c = '\\' then none
    else do
      let (units, rest) ← readUnits t
      return (.char c :: units, rest)

/-- The code points of some units. The halves of a surrogate pair stand for one character. -/
def codesOfUnits : List Unit16 → Codes
  | [] => []
  | .char c :: rest => c.toNat :: codesOfUnits rest
  | .high high :: .low low :: rest =>
    (0x10000 + (high - 0xd800) * 0x400 + (low - 0xdc00)) :: codesOfUnits rest
  | .high code :: rest => code :: codesOfUnits rest
  | .low code :: rest => code :: codesOfUnits rest

/-- The code points of the string after its opening quote. -/
def readString (t : Text) : Option (Codes × Text) :=
  (readUnits t).map fun (units, rest) => (codesOfUnits units, rest)

/-- The digits at the start and the rest. -/
def readDigits (t : Text) : Text × Text :=
  (t.takeWhile Char.isDigit, t.dropWhile Char.isDigit)

/-- The digits after a point, if there are any. -/
def readFraction (t : Text) : Option Text × Text :=
  match t with
  | '.' :: rest =>
    match readDigits rest with
    | ([], _) => (none, t)
    | (digits, rest) => (some digits, rest)
  | _ => (none, t)

/-- A number with the given sign. -/
def readSigned (negative : Bool) (t : Text) : Option (Int × Text) :=
  match readDigits t with
  | ([], _) => none
  | (digits, rest) =>
    let n : Int := natOfDigits digits
    some (if negative then -n else n, rest)

/-- The exponent of a number. -/
def readExponent (t : Text) : Option (Int × Text) :=
  match t with
  | e :: rest =>
    if e = 'e' || e = 'E' then
      match rest with
      | '+' :: rest => readSigned false rest
      | '-' :: rest => readSigned true rest
      | rest => readSigned false rest
    else none
  | [] => none

/-- A number. -/
def readNumber (negative : Bool) (t : Text) : Option (Json × Text) :=
  let (whole, rest) := match t with
    | '0' :: rest => (['0'], rest)
    | t => readDigits t
  if whole.isEmpty then none
  else
    let (fraction, rest) := readFraction rest
    match fraction, readExponent rest with
    | none, none =>
      if digitLimit < whole.length then none
      else
        let n : Int := natOfDigits whole
        some (.int (if negative then -n else n), rest)
    | fraction, exponent =>
      let places := fraction.getD []
      let (shift, rest) := exponent.getD (0, rest)
      some (.float (.ofDecimal negative (natOfDigits (whole ++ places)) (shift - places.length)),
        rest)

/-- The values that are words. -/
def words : List (Text × Json) := [
  ("null", .null), ("true", .bool true), ("false", .bool false), ("NaN", .float .undefined),
  ("Infinity", .float (.infinite false)), ("-Infinity", .float (.infinite true))]

/-- The word or number at the start of a text. -/
def readPlain (t : Text) : Option (Json × Text) :=
  match words.findSome? fun (word, value) => (dropPrefix? word t).map (value, ·) with
  | some found => some found
  | none =>
    match t with
    | '-' :: rest => readNumber true rest
    | t => readNumber false t

mutual

/-- The value at the start of a text, nested at most `n` deep. -/
def readValue : Nat → Text → Option (Json × Text)
  | 0, _ => none
  | n + 1, t =>
    match t with
    | '\x22' :: t => (readString t).map fun (codes, rest) => (.ofCodes codes, rest)
    | '[' :: t =>
      match skipSpace t with
      | ']' :: rest => some (.array [], rest)
      | t => (readItems n t).map fun (items, rest) => (.array items, rest)
    | '{' :: t =>
      match skipSpace t with
      | '}' :: rest => some (.object [], rest)
      | t => (readFields n [] t).map fun (fields, rest) => (.object fields, rest)
    | t => readPlain t

/-- The items of an array from the next one on, up to the closing bracket. -/
def readItems : Nat → Text → Option (List Json × Text)
  | 0, _ => none
  | n + 1, t => do
    let (item, t) ← readValue n t
    match skipSpace t with
    | ']' :: rest => some ([item], rest)
    | ',' :: t =>
      let (items, rest) ← readItems n (skipSpace t)
      some (item :: items, rest)
    | _ => none

/-- The fields of an object from the next one on, up to the closing brace, added to the ones read
already. A field whose name is no text is dropped. -/
def readFields : Nat → List (Text × Json) → Text → Option (List (Text × Json) × Text)
  | 0, _, _ => none
  | n + 1, fields, t =>
    match t with
    | '\x22' :: t => do
      let (name, t) ← readString t
      match skipSpace t with
      | ':' :: t =>
        let (value, t) ← readValue n (skipSpace t)
        let fields := match ofCodes? name with
          | some name => setField name value fields
          | none => fields
        match skipSpace t with
        | '}' :: rest => some (fields, rest)
        | ',' :: t => readFields n fields (skipSpace t)
        | _ => none
      | _ => none
    | _ => none

end

/-- The value written by a whole text. Every step of the reader passes over a character, so the
length of the text bounds the steps. -/
def parse? (t : Text) : Option Json :=
  match readValue (t.length + 1) (skipSpace t) with
  | some (value, rest) => if (skipSpace rest).isEmpty then some value else none
  | none => none

end CodeConverter.Json

import CodeConverter.Service.Check
import CodeConverter.Text.Blank

/-!
# Texts, integers and booleans

What the standard validation takes for a text, an integer or a boolean. Integers may be given as
numbers without a fractional part or as text, and booleans as the numbers zero and one or as one of
a few words.
-/

namespace CodeConverter.Service

open Text

/-- What the standard validation finds wrong with a value. -/
inductive Cause where
  | missing
  | notText
  /-- A string that is no text, since half of a surrogate pair stands alone in it. -/
  | brokenText
  | notObject (model : Text)
  | notList
  | notChosen (choices : List Text)
  | notInteger
  | unreadableInteger
  | oversizedInteger
  | fractionalInteger
  | notFinite
  | notBoolean
  | unreadableBoolean
  | refused (message : Text)
  deriving DecidableEq

namespace Cause

/-- The kind of an error. -/
def kind : Cause → Text
  | .missing => "missing"
  | .notText => "string_type"
  | .brokenText => "string_unicode"
  | .notObject _ => "model_type"
  | .notList => "list_type"
  | .notChosen _ => "enum"
  | .notInteger => "int_type"
  | .unreadableInteger => "int_parsing"
  | .oversizedInteger => "int_parsing_size"
  | .fractionalInteger => "int_from_float"
  | .notFinite => "finite_number"
  | .notBoolean => "bool_type"
  | .unreadableBoolean => "bool_parsing"
  | .refused _ => "value_error"

/-- Quoted texts, the last one after `or`. -/
def choicesText : List Text → Text
  | [] => []
  | [t] => "'" ++ t ++ "'"
  | [t, u] => "'" ++ t ++ "' or '" ++ u ++ "'"
  | t :: rest => "'" ++ t ++ "', " ++ choicesText rest

/-- The wording of an error. -/
def message : Cause → Text
  | .missing => "Field required"
  | .notText => "Input should be a valid string"
  | .brokenText => "Input should be a valid string, unable to parse raw data as a unicode string"
  | .notObject model => "Input should be a valid dictionary or instance of " ++ model
  | .notList => "Input should be a valid list"
  | .notChosen choices => "Input should be " ++ choicesText choices
  | .notInteger => "Input should be a valid integer"
  | .unreadableInteger => "Input should be a valid integer, unable to parse string as an integer"
  | .oversizedInteger => "Unable to parse input string as an integer, exceeded maximum size"
  | .fractionalInteger => "Input should be a valid integer, got a number with a fractional part"
  | .notFinite => "Input should be a finite number"
  | .notBoolean => "Input should be a valid boolean"
  | .unreadableBoolean => "Input should be a valid boolean, unable to interpret input"
  | .refused message => "Value error, " ++ message

end Cause

/-- The failure of a value as a whole. -/
def Checked.fail {α : Type} (cause : Cause) : Checked α :=
  .error [⟨[], cause.kind, cause.message⟩]

/-- A string. -/
def checkText : Json → Checked Text
  | .string t => .ok t
  | .unpaired _ => .fail .brokenText
  | _ => .fail .notText

/-- White space around an integer: blanks other than the separators U+001C to U+001F. -/
def isSpace (c : Char) : Bool :=
  isBlank c && !(0x1c ≤ c.toNat && c.toNat ≤ 0x1f)

/-- The number written by ASCII digits without a needless zero in front, if there are not too
many. -/
def plainNumber? (digits : Text) : Option Nat :=
  if digits.isEmpty || !digits.all Char.isDigit then none
  else if 1 < digits.length && digits.head? = some '0' then none
  else if digitLimit < digits.length then none
  else some (natOfDigits digits)

/-- The integer with an optional minus sign in its plain spelling. -/
def plainInteger? : Text → Option Int
  | '-' :: digits => (plainNumber? digits).map fun n => -(n : Int)
  | digits => (plainNumber? digits).map fun n => (n : Int)

/-- Whether a text starts like an integer in its plain spelling, but with too many digits. -/
def startsOversized (t : Text) : Bool :=
  let digits := match t with
    | '-' :: rest => rest.takeWhile Char.isDigit
    | t => t.takeWhile Char.isDigit
  digits.head? ≠ some '0' && digitLimit < digits.length

/-- The text from the first digit that counts. Zeros in front may be separated by underscores. -/
def dropZerosFrom (previous : Char) : Text → Option Text
  | [] => some [previous]
  | c :: rest =>
    if c = '0' || c = '_' then dropZerosFrom c rest
    else if c.isDigit then some (c :: rest)
    else if c = '.' then some (previous :: c :: rest)
    else none

/-- The text without needless zeros in front, if it starts with a digit at all. -/
def dropZeros : Text → Option Text
  | '0' :: rest => dropZerosFrom '0' rest
  | c :: rest => if c.isDigit then some (c :: rest) else none
  | [] => none

/-- The text without a point followed by zeros and nothing else. -/
def dropPlaces (t : Text) : Text :=
  let places := (t.dropWhile (· ≠ '.')).drop 1
  if !places.isEmpty && places.all (· = '0') then t.takeWhile (· ≠ '.') else t

/-- The text without underscores, if they stand one by one between other characters. -/
def dropUnderscores (t : Text) : Text :=
  if t.head? = some '_' || t.getLast? = some '_' || includes t "__" then t else t.filter (· ≠ '_')

/-- The plain spelling of a number: without zeros in front, zeros after the point and underscores
between digits. -/
def plainDigits? (t : Text) : Option Text :=
  (dropZeros t).map fun t => dropUnderscores (dropPlaces t)

/-- The plain spelling of an integer, which may have spaces around it and a sign. -/
def plainSpelling? (t : Text) : Option Text :=
  match dropEndWhile isSpace (t.dropWhile isSpace) with
  | '+' :: rest => plainDigits? rest
  | '-' :: rest => (plainDigits? rest).map ('-' :: ·)
  | trimmed => plainDigits? trimmed

/-- An integer written in a text. Only a text that is oversized as it stands is called so. -/
def integerOfText (t : Text) : Except Cause Int :=
  if startsOversized t then .error .oversizedInteger
  else
    match plainInteger? t with
    | some n => .ok n
    | none =>
      match (plainSpelling? t).bind plainInteger? with
      | some n => .ok n
      | none => .error .unreadableInteger

/-- The least integer that fits no machine word. -/
def wordBound : Int := 0x8000000000000000

/-- An integer given as a floating point number, which has to be smaller than the bound. -/
def integerOfFloat (x : Binary) : Except Cause Int :=
  match x.truncate?, x.toInt? with
  | none, _ => .error .notFinite
  | some _, none => .error .fractionalInteger
  | some _, some n => if n.natAbs < wordBound then .ok n else .error .oversizedInteger

/-- A value that was read or not. -/
def Checked.ofRead {α : Type} : Except Cause α → Checked α
  | .ok a => .ok a
  | .error cause => .fail cause

/-- An integer: a number, a boolean or a text. -/
def checkInteger : Json → Checked Int
  | .int n => .ok n
  | .bool b => .ok (if b then 1 else 0)
  | .float x => .ofRead (integerOfFloat x)
  | .string t => .ofRead (integerOfText t)
  | .unpaired _ => .fail .brokenText
  | _ => .fail .notInteger

/-- The words for true. -/
def trueWords : List Text := ["1", "t", "y", "on", "yes", "true"]

/-- The words for false. -/
def falseWords : List Text := ["0", "f", "n", "no", "off", "false"]

/-- A boolean given as a word, whatever the case of its letters. -/
def booleanOfText (t : Text) : Except Cause Bool :=
  let word := t.map Char.toLower
  if trueWords.contains word then .ok true
  else if falseWords.contains word then .ok false
  else .error .unreadableBoolean

/-- A boolean given as a number. A number that fits no machine word is not read at all. -/
def booleanOfInteger (n : Int) : Except Cause Bool :=
  if n = 0 then .ok false
  else if n = 1 then .ok true
  else if -wordBound ≤ n && n < wordBound then .error .unreadableBoolean
  else .error .notBoolean

/-- A boolean: a truth value, a number or a text. -/
def checkBoolean : Json → Checked Bool
  | .bool b => .ok b
  | .int n => .ofRead (booleanOfInteger n)
  | .float x =>
    match integerOfFloat x with
    | .ok n => .ofRead (booleanOfInteger n)
    | .error _ => .fail .notBoolean
  | .string t => .ofRead (booleanOfText t)
  | .unpaired _ => .fail .brokenText
  | _ => .fail .notBoolean

end CodeConverter.Service

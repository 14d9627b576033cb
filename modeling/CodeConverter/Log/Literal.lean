import CodeConverter.Json.Value
import CodeConverter.Text.Printable

/-!
# Values in messages

How a value is shown inside a message: as itself, or as a literal with quotes and escapes.
-/

namespace CodeConverter.Log

open Text

/-- The escape of a code point. -/
def codeEscape (code : Nat) : Text :=
  if code < 0x100 then "\\x" ++ hexDigits 2 code
  else if code < 0x10000 then "\\u" ++ hexDigits 4 code
  else "\\U" ++ hexDigits 8 code

/-- A character in a quoted text. -/
def literalChar (shown : Char → Bool) (quote c : Char) : Text :=
  if c = quote || c = '\\' then ['\\', c]
  else if c = '\n' then "\\n"
  else if c = '\r' then "\\r"
  else if c = '\t' then "\\t"
  else if shown c then [c]
  else codeEscape c.toNat

/-- A code point in a quoted text. -/
def literalCode (shown : Char → Bool) (quote : Char) (code : Nat) : Text :=
  if code.isValidChar then literalChar shown quote (Char.ofNat code) else codeEscape code

/-- The quote of a literal: double if only single quotes stand in the text. -/
def literalQuote (codes : Codes) : Char :=
  if codes.contains 0x27 && !codes.contains 0x22 then '\x22' else '\''

/-- Code points in quotes. -/
def quotedCodes (shown : Char → Bool) (codes : Codes) : Text :=
  let quote := literalQuote codes
  [quote] ++ codes.flatMap (literalCode shown quote) ++ [quote]

/-- A text in quotes. -/
def quoted (shown : Char → Bool) (t : Text) : Text :=
  quotedCodes shown (codes t)

mutual

/-- A value as a literal. -/
def literal (shown : Char → Bool) : Json → Text
  | .null => "None"
  | .bool true => "True"
  | .bool false => "False"
  | .int n => signedDecimal n
  | .float x => Number.plain x
  | .string t => quoted shown t
  | .unpaired codes => quotedCodes shown codes
  | .array items => "[" ++ literalItems shown items ++ "]"
  | .object fields => "\x7b" ++ literalFields shown fields ++ "\x7d"

/-- Values as literals. -/
def literalItems (shown : Char → Bool) : List Json → Text
  | [] => []
  | [item] => literal shown item
  | item :: next :: rest => literal shown item ++ ", " ++ literalItems shown (next :: rest)

/-- The entries of a dictionary, separated. -/
def literalFields (shown : Char → Bool) : List (Text × Json) → Text
  | [] => []
  | [(name, value)] => quoted shown name ++ ": " ++ literal shown value
  | (name, value) :: next :: rest =>
    quoted shown name ++ ": " ++ literal shown value ++ ", " ++ literalFields shown (next :: rest)

end

/-- A value as it is shown in running text. -/
def display : Json → Codes
  | .string t => codes t
  | .unpaired codes => codes
  | value => codes (literal isPrintable value)

/-- The name of the type of a value. -/
def typeName : Json → Text
  | .null => "NoneType"
  | .bool _ => "bool"
  | .int _ => "int"
  | .float _ => "float"
  | .string _ => "str"
  | .unpaired _ => "str"
  | .array _ => "list"
  | .object _ => "dict"

end CodeConverter.Log

import CodeConverter.Json.Value

/-!
# Writing JSON

The text of a value uses printable ASCII only: every other character is escaped, beyond the basic
plane as a surrogate pair. Items and fields are separated by a comma and a blank.
-/

namespace CodeConverter.Json

open Text

/-- A code point as four hexadecimal digits. -/
def unicodeEscape (code : Nat) : Text :=
  '\\' :: 'u' :: hexDigits 4 code

/-- A character of a string, escaped if it is not printable ASCII. -/
def escapeChar (c : Char) : Text :=
  if c = '\x22' then ['\\', '\x22']
  else if c = '\\' then ['\\', '\\']
  else if c = '\n' then ['\\', 'n']
  else if c = '\r' then ['\\', 'r']
  else if c = '\t' then ['\\', 't']
  else if c = '\x08' then ['\\', 'b']
  else if c = '\x0c' then ['\\', 'f']
  else if 0x20 ≤ c.toNat && c.toNat ≤ 0x7e then [c]
  else if c.toNat < 0x10000 then unicodeEscape c.toNat
  else
    let code := c.toNat - 0x10000
    unicodeEscape (0xd800 + code / 0x400) ++ unicodeEscape (0xdc00 + code % 0x400)

/-- A string in quotes. -/
def quote (t : Text) : Text :=
  '\x22' :: (t.flatMap escapeChar ++ ['\x22'])

/-- A code point as it is written. -/
def escapeCode (code : Nat) : Text :=
  if code.isValidChar then escapeChar (Char.ofNat code) else unicodeEscape code

/-- Code points in quotes. -/
def quoteCodes (codes : Codes) : Text :=
  '\x22' :: (codes.flatMap escapeCode ++ ['\x22'])

mutual

/-- A value as it is written. -/
def render : Json → Text
  | .null => "null"
  | .bool true => "true"
  | .bool false => "false"
  | .int n => signedDecimal n
  | .float x => renderFloat x
  | .string t => quote t
  | .unpaired codes => quoteCodes codes
  | .array items => "[" ++ renderItems items ++ "]"
  | .object fields => "\x7b" ++ renderFields fields ++ "\x7d"

/-- The items of a list. -/
def renderItems : List Json → Text
  | [] => []
  | [item] => render item
  | item :: next :: rest => render item ++ ", " ++ renderItems (next :: rest)

/-- The fields of an object. -/
def renderFields : List (Text × Json) → Text
  | [] => []
  | [(name, value)] => quote name ++ ": " ++ render value
  | (name, value) :: next :: rest => quote name ++ ": " ++ render value ++ ", " ++
      renderFields (next :: rest)

/-- A number with the fewest digits that read back. -/
def renderFloat : Binary → Text
  | .undefined => "NaN"
  | .infinite false => "Infinity"
  | .infinite true => "-Infinity"
  | x => Number.plain x

end

end CodeConverter.Json

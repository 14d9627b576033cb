import CodeConverter.Text.Basic

/-!
# Texts as numbers

The bytes of a text are those of its characters in UTF-8, and its code points are numbers too, which
are written with hexadecimal digits. Reading bytes back puts the replacement character for every
byte that starts no character. Some code points, the halves of surrogate pairs, are no characters;
those of a text give it back.
-/

namespace CodeConverter

/-- A list of code points, of which some may be no characters. -/
abbrev Codes := List Nat

namespace Text

/-- The code points of a text. -/
def codes (t : Text) : Codes :=
  t.map Char.toNat

/-- The text with some code points, if all of them are characters. -/
def ofCodes? : Codes → Option Text
  | [] => some []
  | code :: rest => if code.isValidChar then (ofCodes? rest).map (Char.ofNat code :: ·) else none

/-- The code points of a text give it back. -/
theorem ofCodes?_codes (t : Text) : ofCodes? (codes t) = some t := by
  induction t with
  | nil => rfl
  | cons c t ih =>
    have hvalid : c.toNat.isValidChar := c.valid
    simp only [codes, List.map_cons, ofCodes?, if_pos hvalid, Char.ofNat_toNat]
    simp only [codes] at ih
    rw [ih]
    rfl

/-- The bytes of a text. -/
def utf8 (t : Text) : List UInt8 :=
  t.flatMap String.utf8EncodeChar

/-- The character that stands for a byte without a meaning. -/
def replacement : Char := '\ufffd'

/-- The character at the start of some bytes. A character has at most four of them. -/
def firstChar? (bytes : List UInt8) : Option Char :=
  ByteArray.utf8DecodeChar? ⟨(bytes.take 4).toArray⟩ 0

/-- The text of some bytes, of which the first `skip` belong to a character that was read. -/
def ofUtf8From : Nat → List UInt8 → Text
  | _, [] => []
  | skip + 1, _ :: rest => ofUtf8From skip rest
  | 0, byte :: rest =>
    match firstChar? (byte :: rest) with
    | some c => c :: ofUtf8From (c.utf8Size - 1) rest
    | none => replacement :: ofUtf8From 0 rest

/-- The text that some bytes stand for. -/
def ofUtf8 (bytes : List UInt8) : Text :=
  ofUtf8From 0 bytes

/-- The value of a hexadecimal digit. -/
def hexValue? (c : Char) : Option Nat :=
  if c.isDigit then some (c.toNat - 0x30)
  else if 'a' ≤ c && c ≤ 'f' then some (c.toNat - 0x61 + 10)
  else if 'A' ≤ c && c ≤ 'F' then some (c.toNat - 0x41 + 10)
  else none

/-- The lower case hexadecimal digit for a value below sixteen. -/
def hexDigit (n : Nat) : Char :=
  if n < 10 then Char.ofNat (0x30 + n) else Char.ofNat (0x61 + n - 10)

/-- The last `size` hexadecimal digits of a number. -/
def hexDigits : Nat → Nat → Text
  | 0, _ => []
  | size + 1, n => hexDigits size (n / 16) ++ [hexDigit (n % 16)]

/-- Every digit has the value it was written for. -/
theorem hexValue?_hexDigit {n : Nat} (h : n < 16) : hexValue? (hexDigit n) = some n := by
  have : ∀ m : Fin 16, hexValue? (hexDigit m) = some m.val := by decide
  exact this ⟨n, h⟩

end Text

end CodeConverter

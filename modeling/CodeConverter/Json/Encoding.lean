import CodeConverter.Json.Reader

/-!
# JSON in bytes

A JSON text starts with an ASCII character. So the zeros among its first bytes show whether a
character takes one, two or four bytes, and in which order they stand.
-/

namespace CodeConverter.Json

open Text

/-- The order of the bytes of a number. -/
inductive ByteOrder where
  | greatestFirst
  | leastFirst
  deriving DecidableEq

/-- How the characters of a JSON text are written in bytes. -/
inductive Encoding where
  | utf8
  | utf16 (order : ByteOrder)
  | utf32 (order : ByteOrder)
  deriving DecidableEq

/-- The encoding, told by the zero bytes. -/
def Encoding.ofBytes : List UInt8 → Encoding
  | 0 :: 0 :: _ :: _ :: _ => .utf32 .greatestFirst
  | 0 :: _ :: _ :: _ :: _ => .utf16 .greatestFirst
  | _ :: 0 :: 0 :: 0 :: _ => .utf32 .leastFirst
  | _ :: 0 :: _ :: _ :: _ => .utf16 .leastFirst
  | [0, _] => .utf16 .greatestFirst
  | [_, 0] => .utf16 .leastFirst
  | _ => .utf8

/-- The number with two digits to the base 256. -/
def ByteOrder.pair (order : ByteOrder) (a b : UInt8) : Nat :=
  match order with
  | .greatestFirst => a.toNat * 256 + b.toNat
  | .leastFirst => b.toNat * 256 + a.toNat

/-- The numbers of two bytes each, if no byte is left over. -/
def ByteOrder.pairs (order : ByteOrder) : List UInt8 → Option (List Nat)
  | [] => some []
  | [_] => none
  | a :: b :: rest => (order.pairs rest).map (order.pair a b :: ·)

/-- The numbers of four bytes each, from the numbers of two bytes. -/
def ByteOrder.quads (order : ByteOrder) : List Nat → Option Codes
  | [] => some []
  | [_] => none
  | a :: b :: rest =>
    let code := match order with
      | .greatestFirst => a * 0x10000 + b
      | .leastFirst => b * 0x10000 + a
    (order.quads rest).map (code :: ·)

/-- The mark that may stand at the start of a text in UTF-8. -/
def byteOrderMark : Char := '\ufeff'

/-- A text without its byte order mark. -/
def dropMark : Text → Text
  | c :: rest => if c = byteOrderMark then rest else c :: rest
  | [] => []

/-- The text that a text stands for if its bytes in UTF-8 are read as a JSON text in the encoding
that they show. -/
def decode? (t : Text) : Option Text :=
  let bytes := utf8 t
  match Encoding.ofBytes bytes with
  | .utf8 => some (dropMark t)
  | .utf16 order => do ofCodes? (codesOfUnits ((← order.pairs bytes).map .ofNat))
  | .utf32 order => do ofCodes? (← order.quads (← order.pairs bytes))

end CodeConverter.Json

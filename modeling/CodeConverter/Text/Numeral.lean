import CodeConverter.Fault

/-!
# Integers in texts

An integer is read from decimal digits of any script and written in ASCII. Both ways are limited
to `digitLimit` digits. Every script with decimal digits has ten consecutive code points for them,
zero first; the table lists the zeros (Unicode 14).
-/

namespace CodeConverter.Text

/-- The zeros of the decimal digits. -/
def digitZeros : List Nat := [
  0x30, 0x660, 0x6f0, 0x7c0, 0x966, 0x9e6, 0xa66, 0xae6, 0xb66, 0xbe6,
  0xc66, 0xce6, 0xd66, 0xde6, 0xe50, 0xed0, 0xf20, 0x1040, 0x1090, 0x17e0,
  0x1810, 0x1946, 0x19d0, 0x1a80, 0x1a90, 0x1b50, 0x1bb0, 0x1c40, 0x1c50, 0xa620,
  0xa8d0, 0xa900, 0xa9d0, 0xa9f0, 0xaa50, 0xabf0, 0xff10, 0x104a0, 0x10d30, 0x11066,
  0x110f0, 0x11136, 0x111d0, 0x112f0, 0x11450, 0x114d0, 0x11650, 0x116c0, 0x11730, 0x118e0,
  0x11950, 0x11c50, 0x11d50, 0x11da0, 0x16a60, 0x16ac0, 0x16b50, 0x1d7ce, 0x1d7d8, 0x1d7e2,
  0x1d7ec, 0x1d7f6, 0x1e140, 0x1e2f0, 0x1e950, 0x1fbf0
]

/-- The value of a digit. -/
def digitValue? (c : Char) : Option Nat :=
  if c.toNat < 0x80 then
    if c.isDigit then some (c.toNat - 0x30) else none
  else
    (digitZeros.find? fun base => base ≤ c.toNat && c.toNat < base + 10).map (c.toNat - ·)

/-- Whether a character is a decimal digit. -/
def isDigit (c : Char) : Bool :=
  (digitValue? c).isSome

/-- The digits of ASCII are decimal digits. -/
theorem isDigit_of_isDigit {c : Char} (h : c.isDigit = true) : isDigit c = true := by
  have small : c.toNat < 0x80 := by
    simp only [Char.isDigit, Bool.and_eq_true, decide_eq_true_eq, UInt32.le_iff_toNat_le] at h
    obtain ⟨_, h⟩ := h
    simp at h
    omega
  simp [isDigit, digitValue?, small, h]

/-- The greatest number of digits that is read or written. -/
def digitLimit : Nat := 4300

/-- The number written by a run of decimal digits. -/
def natOfDigits (t : Text) : Nat :=
  t.foldl (fun n c => n * 10 + (digitValue? c).getD 0) 0

/-- Reads a natural number from a run of decimal digits. -/
def readNat (t : Text) : Except Fault Nat :=
  if digitLimit < t.length then .error (.numeralTooLong t.length) else .ok (natOfDigits t)

/-- Reads an integer: decimal digits after an optional minus sign. -/
def readInt : Text → Except Fault Int
  | '-' :: t => do return -Int.ofNat (← readNat t)
  | t => do return Int.ofNat (← readNat t)

/-- The ASCII digits of a natural number. -/
def decimal (n : Nat) : Text :=
  Nat.toDigits 10 n

/-- The ASCII text of an integer, whatever its size. -/
def signedDecimal (n : Int) : Text :=
  if n < 0 then '-' :: decimal n.natAbs else decimal n.natAbs

/-- Writes an integer in ASCII digits. -/
def writeInt (n : Int) : Except Fault Text :=
  if digitLimit < (decimal n.natAbs).length then .error .numberTooLong else .ok (signedDecimal n)

end CodeConverter.Text

import CodeConverter.Text.Word

/-!
# Printable characters

A character is printable unless it is a control or format character, a separator other than the
ASCII blank, or a code point without a character. Letters and numeric characters are printable; the
table has the other printable characters beyond ASCII (Unicode 14).
-/

namespace CodeConverter.Text

/-- The gaps and runs of printable characters from the end of ASCII on that have all those which are
neither letters nor numeric. -/
def symbolRuns : List Nat := [
  33, 12, 1, 712, 8, 1, 5, 4, 110, 148, 208, 49, 2, 3, 1, 55, 43, 2, 17, 22, 1, 192, 1, 48, 3, 58,
  91, 11, 58, 15, 3, 49, 2, 15, 26, 3, 2, 1, 41, 1, 15, 74, 1, 161, 56, 9, 2, 2, 2, 3, 9, 1, 10, 2,
  14, 13, 2, 3, 56, 1, 1, 5, 4, 2, 2, 3, 3, 1, 30, 7, 10, 3, 56, 10, 1, 3, 1, 3, 20, 2, 12, 2, 8, 6,
  1, 3, 56, 9, 2, 2, 2, 3, 7, 3, 10, 2, 12, 1, 17, 1, 59, 5, 3, 3, 1, 4, 9, 1, 27, 8, 5, 5, 55, 9,
  1, 3, 1, 4, 7, 2, 11, 2, 19, 14, 55, 9, 1, 3, 1, 4, 7, 2, 11, 2, 28, 4, 55, 10, 1, 3, 1, 6, 7, 13,
  21, 1, 7, 3, 70, 1, 4, 6, 1, 1, 1, 8, 18, 3, 60, 10, 4, 29, 85, 12, 11, 6, 51, 63, 49, 39, 1, 36,
  1, 15, 1, 13, 80, 117, 91, 1, 609, 12, 39, 10, 102, 623, 44, 2, 78, 3, 36, 4, 28, 5, 27, 2, 30, 2,
  64, 42, 34, 14, 1, 1, 117, 37, 118, 12, 4, 12, 4, 1, 3, 2, 152, 62, 2, 65, 1, 29, 2, 1, 32, 14, 2,
  31, 49, 69, 21, 37, 1, 116, 8, 60, 3, 5, 62, 2, 64, 8, 8, 42, 198, 64, 445, 5, 11, 3, 13, 19, 13,
  2, 17, 24, 8, 47, 27, 21, 17, 33, 15, 33, 15, 140, 4, 663, 25, 11, 81, 1752, 2, 32, 1, 347, 7, 7,
  112, 1, 14, 1, 96, 126, 34, 26, 1, 89, 12, 214, 26, 12, 5, 63, 89, 99, 148, 84, 28, 31, 11, 7126,
  22160, 55, 55, 274, 95, 137, 8, 139, 119, 43, 9, 4, 58, 4, 8, 70, 8, 2, 16, 116, 11, 1, 32, 78,
  16, 8, 67, 14, 12, 11, 14, 102, 28, 25, 100, 17, 119, 11, 20272, 12, 136, 17, 379, 18, 127, 1, 44,
  30, 6, 51, 1, 19, 1, 4, 149, 101, 122, 7, 1, 7, 13, 2, 258, 3, 52, 88, 1, 13, 3, 1, 47, 46, 226,
  1, 149, 5, 36, 1, 48, 1, 414, 1, 743, 34, 166, 1, 31, 1, 193, 3, 1, 2, 5, 4, 40, 3, 4, 1, 16, 9,
  38, 1, 72, 31, 9, 7, 66, 7, 89, 4, 391, 4, 387, 3, 152, 20, 40, 8, 118, 78, 34, 5, 10, 62, 1, 5,
  61, 53, 11, 7, 44, 3, 10, 96, 76, 19, 106, 1, 53, 12, 21, 4, 55, 10, 2, 2, 2, 3, 9, 1, 10, 2, 2,
  7, 3, 5, 192, 39, 1, 2, 81, 23, 232, 7, 2, 38, 82, 20, 28, 13, 62, 15, 99, 15, 16, 4, 236, 16,
  244, 6, 1, 2, 2, 12, 138, 7, 2, 11, 28, 71, 9, 82, 396, 8, 1, 14, 42, 2, 32, 22, 1, 14, 122, 6, 3,
  1, 1, 2, 1, 9, 66, 5, 1, 2, 1, 5, 347, 6, 220, 29, 13, 1, 1136, 5, 2940, 2, 14971, 2, 128, 6, 58,
  22, 849, 4, 180, 57, 7, 4, 79, 3, 11, 2, 19626, 4, 4704, 46, 2, 23, 9, 116, 60, 246, 10, 39, 2,
  74, 8, 112, 21, 70, 186, 87, 874, 259, 60, 652, 15, 5, 1, 15, 1360, 7, 1, 17, 2, 7, 1, 2, 1, 5,
  261, 7, 24, 1, 350, 1, 61, 4, 15, 1, 1488, 7, 109, 7, 19, 2, 844, 5, 125, 1, 449, 2, 270, 44, 4,
  100, 12, 15, 2, 15, 1, 15, 1, 37, 23, 161, 56, 29, 13, 44, 4, 9, 7, 2, 14, 6, 154, 984, 5, 16, 3,
  13, 3, 116, 12, 89, 7, 12, 4, 1, 15, 12, 4, 56, 8, 10, 6, 40, 8, 30, 2, 2, 78, 340, 12, 14, 2, 5,
  3, 5, 3, 7, 9, 29, 3, 11, 5, 6, 10, 10, 6, 8, 8, 7, 9, 147, 1, 55, 787765, 240]

/-- Whether a character is shown as it is. -/
def isPrintable (c : Char) : Bool :=
  if c.toNat < 0x80 then 0x20 ≤ c.toNat && c.toNat < 0x7f
  else isAlphanumeric c || inRuns symbolRuns (c.toNat - 0x80)

end CodeConverter.Text

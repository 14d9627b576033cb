import CodeConverter.Text.Basic

/-!
# White space

Blanks are the characters with the White_Space property together with the four separators U+001C
to U+001F. Stripping removes blanks from the ends of a text, and the words of a text are its
maximal runs of other characters.
-/

namespace CodeConverter.Text

/-- A white space character. -/
def isBlank (c : Char) : Bool :=
  let code := c.toNat
  (0x09 ≤ code && code ≤ 0x0d) || (0x1c ≤ code && code ≤ 0x20) || code = 0x85 || code = 0xa0 ||
    code = 0x1680 || (0x2000 ≤ code && code ≤ 0x200a) || code = 0x2028 || code = 0x2029 ||
    code = 0x202f || code = 0x205f || code = 0x3000

/-- A text without blanks at its start. -/
def stripStart (t : Text) : Text :=
  t.dropWhile isBlank

/-- A text without blanks at its end. -/
def stripEnd (t : Text) : Text :=
  dropEndWhile isBlank t

/-- A text without blanks around it. -/
def strip (t : Text) : Text :=
  stripEnd (stripStart t)

/-- Adds a character in front of the words of a text; `open?` says whether the first word starts
right there. -/
def pushWord (c : Char) : Bool × List Text → Bool × List Text
  | (open?, words) =>
    if isBlank c then (false, words)
    else match open?, words with
      | true, word :: rest => (true, (c :: word) :: rest)
      | _, words => (true, [c] :: words)

/-- The maximal runs of characters that are not blank. -/
def words (t : Text) : List Text :=
  (t.foldr pushWord (false, [])).2

end CodeConverter.Text

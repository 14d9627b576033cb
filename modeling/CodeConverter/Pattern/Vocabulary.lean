import CodeConverter.Pattern.Search

/-!
# Words for writing patterns

Patterns are written one after another with `++`, and a string stands for itself. The names below
cover the classes of characters and the shapes of repetition that line forms are made of.
-/

namespace CodeConverter.Pattern

/-- Patterns follow one another. -/
instance : Append Pattern := ⟨.seq⟩

/-- A string is the pattern of exactly that text. -/
instance : Coe String Pattern := ⟨fun s => .literal s.toList⟩

/-- A listed character. -/
def among (listed : Text) (c : Char) : Bool :=
  listed.contains c

/-- A character that is not listed. -/
def except (listed : Text) (c : Char) : Bool :=
  !listed.contains c

/-- A word character or a listed one. -/
def wordOr (listed : Text) (c : Char) : Bool :=
  Text.isWord c || listed.contains c

/-- A word character, a blank or a listed one. -/
def wordBlankOr (listed : Text) (c : Char) : Bool :=
  Text.isWord c || Text.isBlank c || listed.contains c

/-- The class of a range of characters, ends included. -/
def between (low high : Char) (c : Char) : Bool :=
  low ≤ c && c ≤ high

/-- The letters of ASCII and the underscore. -/
def nameStart (c : Char) : Bool :=
  c.isAlpha || c = '_'

/-- Any run of characters of a class, the longest preferred. -/
def many (set : Char → Bool) : Pattern :=
  .chars set true

/-- A nonempty run of characters of a class, the longest preferred. -/
def many1 (set : Char → Bool) : Pattern :=
  .seq (.char set) (.chars set true)

/-- Any run of characters of a class, the shortest preferred. -/
def few (set : Char → Bool) : Pattern :=
  .chars set false

/-- A nonempty run of characters of a class, the shortest preferred. -/
def few1 (set : Char → Bool) : Pattern :=
  .seq (.char set) (.chars set false)

/-- A pattern or nothing. -/
def maybe (p : Pattern) : Pattern :=
  .alt p .empty

/-- One of some patterns. -/
def oneOf : List Pattern → Pattern
  | [] => .notAhead .empty
  | [p] => p
  | p :: rest => .alt p (oneOf rest)

/-- One of some words. -/
def keyword (words : List String) : Pattern :=
  oneOf (words.map fun w => .literal w.toList)

/-- Any blanks. -/
def blanks : Pattern := many Text.isBlank

/-- At least one blank. -/
def gap : Pattern := many1 Text.isBlank

/-- A run of word characters. -/
def word : Pattern := many1 Text.isWord

/-- Any character but a line feed. -/
def inLine (c : Char) : Bool := c ≠ '\n'

/-- As much of the line as possible. -/
def anything : Pattern := many inLine

/-- As little of a line as possible. -/
def little : Pattern := few inLine

/-- As little of the line as possible, but at least one character. -/
def something : Pattern := few1 inLine

/-- Any of the words, with blanks after each. -/
def modifiers (words : List String) : Pattern :=
  .star (keyword words ++ gap)

/-- None of the words is ahead. -/
def noneOf (words : List String) : Pattern :=
  .notAhead (keyword words ++ wordEdge)

end CodeConverter.Pattern

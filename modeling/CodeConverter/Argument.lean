import CodeConverter.Literal.Token
import CodeConverter.Pattern.Vocabulary

/-!
# Argument lists, brackets and trailing comments

Scans of a line that pass over quoted text: splitting a list at its top level commas, counting the
brackets a line leaves open, and finding a trailing comment. A quote is closed by the next quote of
its kind; these scans do not know escapes.
-/

namespace CodeConverter

open Text Literal Pattern

/-- An opening round, square or curly bracket. -/
def isOpening (c : Char) : Bool :=
  c = '(' || c = '[' || c = '{'

/-- A closing round, square or curly bracket. -/
def isClosing (c : Char) : Bool :=
  c = ')' || c = ']' || c = '}'

/-- The quote that is open after `c`, given the one that was open before it. -/
def quoteAfter (opens : Char → Bool) (quote : Option Char) (c : Char) : Option Char :=
  match quote with
  | some q => if c = q then none else some q
  | none => if opens c then some c else none

/-- How a character changes the depth of brackets. -/
def depthChange (c : Char) : Int :=
  if isOpening c then 1 else if isClosing c then -1 else 0

/-- The arguments from a place on, given the bracket depth, the open quote and the characters of
the argument at hand, the latest first. A blank last argument is dropped. -/
def splitArgumentsFrom : Int → Option Char → Text → Text → List Text
  | _, _, current, [] =>
    let last := strip current.reverse
    if last.isEmpty then [] else [last]
  | depth, some q, current, c :: t =>
    splitArgumentsFrom depth (quoteAfter isQuote (some q) c) (c :: current) t
  | depth, none, current, c :: t =>
    if c = ',' && depth = 0 then strip current.reverse :: splitArgumentsFrom 0 none [] t
    else splitArgumentsFrom (depth + depthChange c) (quoteAfter isQuote none c) (c :: current) t

/-- The arguments of a comma separated list, stripped. Commas inside brackets or quotes do not
separate. -/
def splitArguments (t : Text) : List Text :=
  splitArgumentsFrom 0 none [] t

/-- The brackets left open by the text from a place on, given the open quote. -/
def bracketBalanceFrom : Option Char → Text → Int
  | _, [] => 0
  | some q, c :: t => bracketBalanceFrom (quoteAfter isPlainQuote (some q) c) t
  | none, c :: t => depthChange c + bracketBalanceFrom (quoteAfter isPlainQuote none c) t

/-- The number of brackets a line opens minus the number it closes, quoted text ignored. -/
def bracketBalance (t : Text) : Int :=
  bracketBalanceFrom none t

/-- The text before and after the first `#` outside quotes, given the open quote. -/
def cutComment : Option Char → Text → Option (Text × Text)
  | _, [] => none
  | some q, c :: t =>
    (cutComment (quoteAfter isPlainQuote (some q) c) t).map fun (code, rest) => (c :: code, rest)
  | none, c :: t =>
    if c = '#' then some ([], t)
    else (cutComment (quoteAfter isPlainQuote none c) t).map fun (code, rest) => (c :: code, rest)

/-- The code of a line and its comment. -/
def splitComment (t : Text) : Text × Option Text :=
  match cutComment none t with
  | some (code, rest) => (stripEnd code, some (strip rest))
  | none => (t, none)

end CodeConverter

import CodeConverter.Argument
import CodeConverter.Literal.Interpolation
import CodeConverter.Spelling

/-!
# Expressions respelled for PHP

The source is Python. Names that are known to be variables get a sigil.
-/

namespace CodeConverter.Expression.ToPhp

open Text Pattern

/-- A name that is no member, no part of a longer word and not called. -/
def freeName : Pattern :=
  notBehind (wordOr "$>.") ++ group 1 (.char nameStart ++ many isWord) ++ wordEdge ++
    notAhead (blanks ++ "(")

/-- The dot in front of a member. -/
def memberDot : Pattern :=
  behind (wordOr ")]") ++ "." ++ .ahead (.char nameStart)

/-- Known names written with a sigil, and member accesses with an arrow. -/
def sigils (known : Text → Bool) (t : Text) : Text :=
  let t := freeName.replaceBy (fun m => if known (m.group 1) then "$" ++ m.group 1 else m.group 1) t
  memberDot.replaceWith "->" t

/-- A dictionary without braces inside. -/
def dictionary : Pattern :=
  "\x7b" ++ group 1 (many (except "{}")) ++ "\x7d"

/-- The entry `key: value` of a dictionary as an array entry. -/
def arrayEntry (entry : Text) : Text :=
  let (key, value) := cut ':' entry
  strip key ++ " => " ++ strip value

/-- An array with the given contents. -/
def array (contents : Text) : Text :=
  "array(" ++ join ", " ((splitArguments contents).map arrayEntry) ++ ")"

/-- A text with its dictionaries as arrays. -/
def arrays (t : Text) : Text :=
  dictionary.replaceBy (fun m => array (m.group 1)) t

/-- A call that appends to a list. -/
def appendCall : Pattern :=
  group 1 ("$" ++ many1 (wordOr ">-")) ++ "->append(" ++ group 2 anything ++ ")"

/-- A Python expression, given the names of the variables. -/
def ofPython (known : Text → Bool) (t : Text) : Except Fault Text := do
  let t ← Spelling.symbolExpression false "$this->" (Literal.markedToConcatenation " . " t)
  let t ← Literal.respellOutside (sigils known) t
  let t := if t.contains ':' then arrays t else replace "{}" "array()" t
  let t := (wordEdge ++ "len(").replaceWith "count(" t
  let t := (wordEdge ++ "str(").replaceWith "strval(" t
  return appendCall.replaceBy (fun m => "array_push(" ++ m.group 1 ++ ", " ++ m.group 2 ++ ")") t

end CodeConverter.Expression.ToPhp

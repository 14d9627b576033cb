import CodeConverter.Literal.Interpolation
import CodeConverter.Spelling

/-!
# Expressions respelled for C#

The source is JavaScript.
-/

namespace CodeConverter.Expression.ToCSharp

open Text Pattern

/-- Strict comparisons written with one sign less. -/
def looseEquality (t : Text) : Text :=
  replace "!==" "!=" (replace "===" "==" t)

/-- A JavaScript expression. -/
def ofJavaScript (t : Text) : Text :=
  let t := Literal.backtickLiteral.replaceBy
    (fun m => "$\"" ++ Literal.dollarToBrace (m.group 1) ++ "\"") t
  let t := looseEquality t
  let t := Spelling.respellWord ["undefined"] "null" t
  let t := (".length" ++ wordEdge).replaceWith ".Length" t
  let t := (wordEdge ++ "Math." ++ group 1 (.char Char.isLower)).replaceBy
    (fun m => "Math." ++ (m.group 1).map Char.toUpper) t
  let t := (wordEdge ++ "parseInt(").replaceWith "int.Parse(" t
  let t := (wordEdge ++ "parseFloat(").replaceWith "double.Parse(" t
  let t := (wordEdge ++ "super.").replaceWith "base." t
  let t := replace ".includes(" ".Contains(" (replace ".push(" ".Add(" t)
  let t := replace ".toString()" ".ToString()" t
  replace ".toLowerCase()" ".ToLower()" (replace ".toUpperCase()" ".ToUpper()" t)

/-- A list or dictionary in C#. -/
def collection (value : Text) : Text :=
  if value = "[]".toList then "new List<object>()"
  else if startsWith value "[" && endsWith value "]" then
    "new List<object> \x7b " ++ strip (value.drop 1).dropLast ++ " \x7d"
  else if value = "{}".toList then "new Dictionary<string, object>()"
  else value

end CodeConverter.Expression.ToCSharp

import CodeConverter.Expression.ToCSharp
import CodeConverter.Expression.ToJavaScript

/-!
# Expressions respelled for Java

The sources are JavaScript and Python.
-/

namespace CodeConverter.Expression.ToJava

open Text Pattern

/-- Single quoted literals without quotes or escapes inside, written with double quotes. -/
def doubleQuoted (t : Text) : Text :=
  ("'" ++ group 1 (many (except "'\"\\")) ++ "'").replaceBy (fun m => "\"" ++ m.group 1 ++ "\"") t

/-- A JavaScript expression. -/
def ofJavaScript (t : Text) : Text :=
  let t := Literal.markedToConcatenation " + " (Literal.backtickToMarked t)
  let t := ToCSharp.looseEquality (doubleQuoted t)
  let t := Spelling.respellWord ["undefined"] "null" t
  replace ".push(" ".add(" t

/-- Python functions and methods that have another form. -/
def pythonCalls (t : Text) : Text :=
  let t := (ToJavaScript.callOf "len").replaceBy (fun m => m.group 1 ++ ".size()") t
  let t := (ToJavaScript.callOf "str").replaceBy (fun m => "String.valueOf(" ++ m.group 1 ++ ")") t
  replace ".append(" ".add(" t

/-- An expression of Python in Java. -/
def ofPython (t : Text) : Except Fault Text := do
  let t := doubleQuoted (Literal.markedToConcatenation " + " t)
  Literal.respellOutside pythonCalls (← Spelling.symbolExpression false "this." t)

/-- The entry `key: value` of a dictionary as two arguments. -/
def entryArguments (entry : Text) : Text :=
  let (key, value) := cut ':' entry
  strip key ++ ", " ++ strip value

/-- A list or dictionary in Java. -/
def collection (value : Text) : Text :=
  if value = "[]".toList then "new ArrayList<>()"
  else if startsWith value "[" && endsWith value "]" then
    "new ArrayList<>(List.of(" ++ (value.drop 1).dropLast ++ "))"
  else if value = "{}".toList then "new HashMap<>()"
  else if startsWith value "\x7b" && endsWith value "\x7d" then
    let entries := splitArguments (value.drop 1).dropLast
    "new HashMap<>(Map.of(" ++ join ", " (entries.map entryArguments) ++ "))"
  else value

end CodeConverter.Expression.ToJava

import CodeConverter.Argument
import CodeConverter.Loop

/-!
# Type names

Types of declared variables, taken from a Python annotation or from a literal initializer.
-/

namespace CodeConverter

open Text Pattern

namespace Literal

/-- The kinds of values that can be told from how they are written. -/
inductive Kind where
  | integer
  | decimal
  | string
  | boolean
  | list
  | dictionary
  deriving DecidableEq

/-- A number with a point. -/
def decimalLiteral : Pattern :=
  atStart ++ maybe "-" ++ many1 isDigit ++ "." ++ many isDigit ++ atEnd

/-- A text that starts and ends with the same quote. -/
def quotedText : Pattern :=
  atStart ++ group 1 (.char (among "\"'")) ++ anything ++ again 1 ++ atEnd

/-- The spellings of the truth values. -/
def booleans : List Text :=
  ["True", "False", "true", "false"]

/-- The kind of a literal. -/
def Kind.of? (t : Text) : Option Kind :=
  let t := strip t
  if Loop.integerLiteral.matchesStart t then some .integer
  else if decimalLiteral.matchesStart t then some .decimal
  else if quotedText.matchesStart t then some .string
  else if booleans.contains t then some .boolean
  else match t with
    | '[' :: _ => some .list
    | '{' :: _ => some .dictionary
    | _ => none

end Literal

namespace TypeName

/-- The Java type of a literal. -/
def javaLiteral : Literal.Kind → Text
  | .integer => "int"
  | .decimal => "double"
  | .string => "String"
  | .boolean => "boolean"
  | .list => "List<Object>"
  | .dictionary => "Map<String, Object>"

/-- The TypeScript type of a literal. -/
def typescriptLiteral : Literal.Kind → Text
  | .integer => "number"
  | .decimal => "number"
  | .string => "string"
  | .boolean => "boolean"
  | .list => "any[]"
  | .dictionary => "Record<string, any>"

/-- The Java types of annotations. -/
def javaAnnotations : List (Text × Text) := [
  ("int", "int"), ("float", "double"), ("str", "String"), ("bool", "boolean"), ("None", "void"),
  ("list", "List<Object>"), ("List", "List<Object>"), ("dict", "Map<String, Object>"),
  ("Dict", "Map<String, Object>")]

/-- Type arguments at the end. -/
def typeArguments : Pattern :=
  "[" ++ anything ++ "]" ++ atEnd

/-- The Java type of a Python annotation, empty if there is none. -/
def java (hint : Text) : Text :=
  if hint.isEmpty then "Object"
  else (javaAnnotations.lookup (typeArguments.replaceWith [] (strip hint))).getD "Object"

/-- The TypeScript types of the Python annotations that have another name there. -/
def typescriptAnnotations : List (Text × Text) := [
  ("int", "number"), ("float", "number"), ("complex", "number"), ("str", "string"),
  ("bool", "boolean"),
  ("None", "void"), ("Any", "any"), ("object", "any"), ("list", "any[]"), ("List", "any[]"),
  ("dict", "Record<string, any>"), ("Dict", "Record<string, any>")]

/-- A type with arguments. -/
def generic : Pattern :=
  atStart ++ group 1 word ++ "[" ++ group 2 anything ++ "]" ++ atEnd

/-- The types that are lists. -/
def listNames : List Text :=
  ["list", "List", "Sequence", "Iterable", "set", "Set"]

/-- The types that are dictionaries. -/
def dictionaryNames : List Text :=
  ["dict", "Dict", "Mapping"]

/-- A TypeScript type with arguments. -/
def typescriptGeneric (argument : Text → Text) (name : Text) (arguments : List Text) : Text :=
  match arguments with
  | first :: rest =>
    if listNames.contains name then
      let inner := argument first
      if inner.contains '|' then "(" ++ inner ++ ")[]" else inner ++ "[]"
    else if dictionaryNames.contains name && rest.length = 1 then
      "Record<" ++ argument first ++ ", " ++ argument (rest.headD []) ++ ">"
    else if name = "Optional".toList then argument first ++ " | null"
    else if name = "Union".toList then join " | " (arguments.map argument)
    else "any"
  | [] => if name = "Union".toList then [] else "any"

/-- The TypeScript type of a Python annotation with at most `depth` levels of arguments. -/
def typescriptWithin : Nat → Text → Text
  | 0, hint => hint
  | depth + 1, hint =>
    if hint.isEmpty then "any"
    else
      let isMark (c : Char) : Bool := Literal.isPlainQuote c
      let hint := dropEndWhile isMark ((strip hint).dropWhile isMark)
      match generic.matchStart hint with
      | some m =>
          typescriptGeneric (typescriptWithin depth) (m.group 1) (splitArguments (m.group 2))
      | none =>
        if hint.contains '|' then
          join " | " ((splitOn '|' hint).map (typescriptWithin depth))
        else (typescriptAnnotations.lookup hint).getD hint

/-- The TypeScript type of a Python annotation, empty if there is none. Arguments and alternatives
are shorter than the annotation they stand in, so its length bounds their nesting. -/
def typescript (hint : Text) : Text :=
  typescriptWithin (hint.length + 1) hint

end TypeName

end CodeConverter

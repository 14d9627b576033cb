import CodeConverter.Expression.ToPython

/-!
# Expressions respelled for JavaScript

The sources are Java, C# and Python.
-/

namespace CodeConverter.Expression.ToJavaScript

open Text Pattern

/-- An expression of Java in JavaScript. -/
def ofJava (t : Text) : Text :=
  let t := ToPython.plainJava t
  let t := ("." ++ keyword ["length", "size"] ++ "()").replaceWith ".length" t
  let t := (".equals(" ++ group 1 little ++ ")").replaceBy (fun m => " === " ++ m.group 1) t
  let t := (wordEdge ++ "String.valueOf(").replaceWith "String(" t
  let t := (wordEdge ++ "Integer.parseInt(").replaceWith "parseInt(" t
  let t := (wordEdge ++ "Double.parseDouble(").replaceWith "parseFloat(" t
  replace ".add(" ".push(" t

/-- An interpolated literal of C#. -/
def interpolated : Pattern :=
  "$" ++ maybe "@" ++ "\"" ++
    group 1 (.star (oneOf [.char (except "\"\\"), "\\" ++ .char inLine])) ++ "\""

/-- A hole of an interpolated C# literal. -/
def interpolatedField : Pattern :=
  "\x7b" ++ group 1 (many (except "{}")) ++ "\x7d"

/-- A new collection of C#. -/
def collectionCreation : Pattern :=
  wordEdge ++ "new" ++ gap ++ keyword ["List", "HashSet", "Queue", "Stack"] ++ "<" ++
    few (except "()") ++ ">" ++
    blanks ++ maybe "()" ++ maybe (blanks ++ "\x7b" ++ blanks ++ group 1 little ++ blanks ++ "\x7d")

/-- A new array of C# with its items. -/
def arrayCreation : Pattern :=
  wordEdge ++ "new" ++ gap ++ maybe (many1 (wordOr ".")) ++ "[]" ++ blanks ++ "\x7b" ++ blanks ++
    group 1 little ++ blanks ++ "\x7d"

/-- A new dictionary of C#. -/
def dictionaryCreation : Pattern :=
  wordEdge ++ "new" ++ gap ++ "Dictionary<" ++ few (except "()") ++ ">" ++ blanks ++ "()"

/-- A C# expression. -/
def ofCSharp (t : Text) : Text :=
  let t := interpolated.replaceBy
    (fun m => "`" ++ interpolatedField.replaceBy (fun h => "$\x7b" ++ h.group 1 ++ "\x7d")
    (m.group 1) ++ "`") t
  let t := collectionCreation.replaceBy (fun m => "[" ++ m.group 1 ++ "]") t
  let t := arrayCreation.replaceBy (fun m => "[" ++ m.group 1 ++ "]") t
  let t := dictionaryCreation.replaceWith "{}" t
  let basic := keyword
    ["int", "long", "short", "byte", "float", "double", "decimal", "char", "string", "object"]
  let t := ("(" ++ basic ++ ")" ++ blanks).replaceWith [] t
  let t := ("." ++ keyword ["Length", "Count"] ++ wordEdge ++ maybe "()").replaceWith ".length" t
  let t := (wordEdge ++ "Math." ++ group 1 (.char Char.isUpper)).replaceBy
    (fun m => "Math." ++ (m.group 1).map Char.toLower) t
  let t := (wordEdge ++ keyword ["int", "long"] ++ ".Parse(").replaceWith "parseInt(" t
  let t := (wordEdge ++ keyword ["double", "float", "decimal"] ++ ".Parse(").replaceWith
    "parseFloat(" t
  let t := (wordEdge ++ "base.").replaceWith "super." t
  let t := replace ".Contains(" ".includes(" (replace ".Add(" ".push(" t)
  let t := replace ".ToString()" ".toString()" t
  replace ".ToLower()" ".toLowerCase()" (replace ".ToUpper()" ".toUpperCase()" t)

/-- A call of a Python function of one argument without parentheses inside, remembered. -/
def callOf (name : String) : Pattern :=
  wordEdge ++ .literal name.toList ++ "(" ++ group 1 (many (except "()")) ++ ")"

/-- Python functions and methods that have another form. -/
def pythonCalls (t : Text) : Text :=
  let t := (callOf "len").replaceBy (fun m => m.group 1 ++ ".length") t
  let t := (callOf "str").replaceBy (fun m => "String(" ++ m.group 1 ++ ")") t
  replace ".append(" ".push(" t

/-- An expression of Python in JavaScript. -/
def ofPython (t : Text) : Except Fault Text := do
  Literal.respellOutside pythonCalls
    (← Spelling.symbolExpression true "this." (Literal.markedToBacktick t))

end CodeConverter.Expression.ToJavaScript

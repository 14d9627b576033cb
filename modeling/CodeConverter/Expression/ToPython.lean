import CodeConverter.Argument
import CodeConverter.Literal.Interpolation
import CodeConverter.Spelling

/-!
# Expressions respelled for Python

The sources are the brace languages: JavaScript, Java and PHP.
-/

namespace CodeConverter.Expression.ToPython

open Text Pattern

/-- The word before an object creation removed. -/
def dropNew (t : Text) : Text :=
  (wordEdge ++ "new" ++ gap).replaceWith [] t

/-- What all brace languages have in common: object creation, operators, constants and the
receiver. -/
def ofBraces (t : Text) : Except Fault Text := do
  Spelling.wordExpression (← Literal.respellOutside dropNew t)

/-- A chain of names in front of a dot, remembered. -/
def chain : Pattern :=
  group 1 (many1 (wordOr "."))

/-- A text with its lengths as calls. -/
def lengthMember (t : Text) : Text :=
  (chain ++ ".length" ++ wordEdge).replaceBy (fun m => "len(" ++ m.group 1 ++ ")") t

/-- Members of JavaScript objects that have another form. -/
def javascriptCalls (t : Text) : Text :=
  replace ".push(" ".append(" (lengthMember t)

/-- A JavaScript expression. -/
def ofJavaScript (t : Text) : Except Fault Text := do
  Literal.respellOutside javascriptCalls (← ofBraces (Literal.backtickToMarked t))

/-- Empty collections of Java as literals, and casts to basic types removed. -/
def plainJava (t : Text) : Text :=
  let creation (names : List String) : Pattern :=
    wordEdge ++ "new" ++ gap ++ keyword names ++ "<" ++ many (except ">") ++ ">()"
  let t := (creation ["ArrayList", "LinkedList"]).replaceWith "[]" t
  let t := (creation ["HashMap", "TreeMap", "LinkedHashMap"]).replaceWith "{}" t
  let basic :=
    keyword ["int", "long", "short", "byte", "float", "double", "char", "String",
      "Integer", "Double"]
  ("(" ++ basic ++ ")" ++ blanks).replaceWith [] t

/-- Members of Java objects that have another form. -/
def javaCalls (t : Text) : Text :=
  let t := (chain ++ "." ++ keyword ["length", "size"] ++ "()").replaceBy (fun m =>
    "len(" ++ m.group 1 ++ ")") t
  let t := lengthMember t
  let t := (chain ++ ".equals(" ++ group 2 little ++ ")").replaceBy (fun m =>
    m.group 1 ++ " == " ++ m.group 2) t
  replace ".add(" ".append(" t

/-- An expression of Java in Python. -/
def ofJava (t : Text) : Except Fault Text := do
  Literal.respellOutside javaCalls (← ofBraces (plainJava t))

/-- The contents of a PHP array as a dictionary or list. -/
def collection (items : Text) : Text :=
  if includes items "=>" then "\x7b" ++ (blanks ++ "=>" ++ blanks).replaceWith ": " items ++ "\x7d"
  else "[" ++ items ++ "]"

/-- An innermost `array(...)`. -/
def longArray : Pattern :=
  wordEdge ++ "array(" ++ group 1 (many (except "()")) ++ ")"

/-- An innermost array in brackets with keys. -/
def shortArray : Pattern :=
  "[" ++ group 1 (many (except "[]") ++ "=>" ++ many (except "[]")) ++ "]"

/-- Long arrays replaced from the inside out, at most `n` times over the whole text. -/
def longArraysFrom : Nat → Text → Text
  | 0, t => t
  | n + 1, t =>
    if longArray.occursIn t then
      longArraysFrom n (longArray.replaceBy (fun m => collection (m.group 1)) t)
    else t

/-- Long arrays replaced until none is left. Each round removes an opening parenthesis, so their
number bounds the rounds. -/
def longArrays (t : Text) : Text :=
  longArraysFrom (t.count '(') t

/-- A call of one of the listed functions of one argument written as a method call. -/
def methodCall (name : String) (method : Text) (t : Text) : Text :=
  (wordEdge ++ .literal name.toList ++ "(" ++ group 1 (many (except "()")) ++ ")").replaceBy
    (fun m => m.group 1 ++ method) t

/-- A PHP expression without sigils. -/
def ofPhp (t : Text) : Except Fault Text :=
  let t := longArrays t
  let t := shortArray.replaceBy (fun m => collection (m.group 1)) t
  let t := (gap ++ "." ++ gap).replaceWith " + " t
  let t := replace ".=" "+=" t
  let t := (wordEdge ++ keyword ["count", "strlen", "sizeof"] ++ "(").replaceWith "len(" t
  let t := methodCall "strtoupper" ".upper()" t
  let t := methodCall "strtolower" ".lower()" t
  ofBraces t

/-- A double quoted PHP literal with a variable in it. -/
def interpolatedPhp : Pattern :=
  "\"" ++ group 1 (many (except "\"") ++ "$" ++ .char isWord ++ many (except "\"")) ++ "\""

/-- A variable in a PHP literal, with or without braces around it. -/
def phpField : Pattern :=
  maybe "\x7b" ++ "$" ++ group 1 (word ++ .star ("->" ++ word)) ++ maybe "\x7d"

/-- A piece of a PHP line without sigils, its member accesses written with dots. -/
def withoutSigils (t : Text) : Text :=
  let t := interpolatedPhp.replaceBy
    (fun m =>
    "f\"" ++ phpField.replaceBy (fun h => "\x7b" ++ h.group 1 ++ "\x7d") (m.group 1) ++ "\"") t
  let t := replace "$this->" "this." t
  let t := ("$" ++ group 1 (.char isWord)).replaceBy (·.group 1) t
  let t := replace "->" "." t
  replace "::" "."
    ((wordEdge ++ keyword ["self", "static", "parent"] ++ "::").replaceWith "self." t)

/-- Whether the parenthesis depth comes back to zero before the last character. -/
def closesEarly : Int → Text → Bool
  | _, [] => false
  | _, [_] => false
  | depth, c :: t =>
    let depth := depth + (if c = '(' then 1 else if c = ')' then -1 else 0)
    depth = 0 || closesEarly depth t

/-- The text without a pair of parentheses around the whole of it. -/
def unwrap (t : Text) : Text :=
  if startsWith t "(" && endsWith t ")" && !closesEarly 0 t then (t.drop 1).dropLast else t

end CodeConverter.Expression.ToPython

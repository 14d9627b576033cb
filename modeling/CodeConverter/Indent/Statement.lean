import CodeConverter.Indent.State

/-!
# Lines of an indented source

Control structures are written with braces in the same way for every target; declarations and
output depend on the target.
-/

namespace CodeConverter.Indent

open Text Pattern

/-- A header with its brace. -/
def header (s : State) (text : Text) (scope : Scope) (names : List Text) : State × Code :=
  (s.announce scope names, .line (text ++ " \x7b"))

/-- A line that no form describes. One that ends in a colon is a header. -/
def generic (c : Conversion) (s : State) (line : Text) : Visit := do
  let text ← s.expression c line
  if endsIn (· = ':') text && s.brackets = 0 then
    return header s (stripEnd text.dropLast) .block []
  return (s, .line (s.terminate text))

/-- A line as a comment. -/
def asComment (s : State) (line : Text) : State × Code :=
  (s, .line ("// " ++ line))

/-- A decorator. Those that make a method static are remembered, others become comments. -/
def decoratorLine (s : State) (l : Classified) : State × Code :=
  if l.group 1 = "staticmethod".toList || l.group 1 = "classmethod".toList then
    ({ s with decorators := s.decorators ++ [l.group 1] }, .nothing)
  else asComment s l.line

/-- Takes the waiting decorators and says whether they make a function static. -/
def takeStatic (s : State) : Bool × State :=
  (s.decorators.contains "staticmethod".toList, { s with decorators := [] })

/-- A header with a condition. -/
def conditionHeader (c : Conversion) (s : State) (l : Classified) (start : Text) : Visit := do
  return header s (start ++ (← s.condition c (l.group 1))) .block []

/-- A loop over a range, written as a counting loop. -/
def rangeForHeader (c : Conversion) (s : State) (l : Classified) : Visit := do
  let name := l.group 1
  if c = .toPhp then
    let s := s.announce .block [name]
    let arguments ← s.expression c (l.group 2)
    match Loop.countingLoop ("$" ++ name) (splitArguments arguments) c.loopDeclaration with
    | none => generic c s l.line
    | some loop => return (s, .line ("for " ++ loop ++ " \x7b"))
  else
    let arguments ← s.expression c (l.group 2)
    match Loop.countingLoop name (splitArguments arguments) c.loopDeclaration with
    | none => generic c s l.line
    | some loop => return header s ("for " ++ loop) .block [name]

/-- The targets of a loop: the names between commas, without parentheses around them. -/
def loopTargets (t : Text) : List Text :=
  let isParenthesis (c : Char) : Bool := c = '(' || c = ')'
  (splitOn ',' (dropEndWhile isParenthesis (t.dropWhile isParenthesis))).map strip

/-- A call of one of the methods without arguments. -/
def viewOf (methods : List String) : Pattern :=
  atStart ++ group 1 (many1 inLine) ++ "." ++ group 2 (keyword methods) ++ "()" ++ atEnd

/-- A collection with the places of its elements. -/
def enumerated : Pattern :=
  atStart ++ "enumerate(" ++ group 1 (many1 inLine) ++ ")" ++ atEnd

/-- What a `for` loop of JavaScript runs over. -/
def javascriptIterable (c : Conversion) (s : State) (t : Text) : Except Fault Text := do
  match (viewOf ["items", "keys", "values"]).matchStart t with
  | some m =>
    let method := if m.group 2 = "items".toList then ("entries" : Text) else m.group 2
    return "Object." ++ method ++ "(" ++ (← s.expression c (m.group 1)) ++ ")"
  | none =>
    match enumerated.matchStart t with
    | some m => return (← s.expression c (m.group 1)) ++ ".entries()"
    | none => s.expression c t

/-- A loop over a collection for JavaScript. -/
def javascriptFor (c : Conversion) (s : State) (l : Classified) : Visit := do
  let targets := loopTargets (l.group 1)
  let iterable ← javascriptIterable c s (l.group 2)
  let binding := match targets with
    | [name] => name
    | _ => "[" ++ join ", " targets ++ "]"
  return header s ("for (const " ++ binding ++ " of " ++ iterable ++ ")") .block targets

/-- A loop over a collection for Java. The entries of a map are taken apart in the body. -/
def javaFor (c : Conversion) (s : State) (l : Classified) : Visit := do
  let targets := loopTargets (l.group 1)
  match (viewOf ["items"]).matchStart (l.group 2), targets with
  | some m, [key, value] =>
    let entries ← s.expression c (m.group 1)
    let indent := List.replicate c.indentSize ' '
    return (s.announce .block [key, value, "entry"], .lines [
      "for (Map.Entry<Object, Object> entry : " ++ entries ++ ".entrySet()) \x7b",
      indent ++ "Object " ++ key ++ " = entry.getKey();",
      indent ++ "Object " ++ value ++ " = entry.getValue();"])
  | _, _ =>
    let iterable ← s.expression c (l.group 2)
    return header s ("for (Object " ++ targets.headD [] ++ " : " ++ iterable ++ ")") .block targets

/-- A loop over a collection for PHP. -/
def phpFor (c : Conversion) (s : State) (l : Classified) : Visit := do
  let targets := loopTargets (l.group 1)
  let s := s.announce .block targets
  match (viewOf ["items"]).matchStart (l.group 2), targets with
  | some m, [key, value] =>
    let items ← s.expression c (m.group 1)
    return (s, .line ("foreach (" ++ items ++ " as $" ++ key ++ " => $" ++ value ++ ") \x7b"))
  | _, _ =>
    let items ← s.expression c (l.group 2)
    return (s, .line ("foreach (" ++ items ++ " as $" ++ targets.headD [] ++ ") \x7b"))

/-- A loop over a collection. -/
def forHeader (c : Conversion) (s : State) (l : Classified) : Visit :=
  match c with
  | .plain => generic c s l.line
  | .toJava => javaFor c s l
  | .toPhp => phpFor c s l
  | _ => javascriptFor c s l

/-- A `return` statement. In Java a returned value settles the result type of the function. -/
def returnLine (c : Conversion) (s : State) (l : Classified) : Visit := do
  match l.group 1 with
  | [] => return (s, .line "return;")
  | value =>
    let s := match c, s.untyped with
      | .toJava, _ :: rest => { s with untyped := none :: rest }
      | _, _ => s
    return (s, .line (s.terminate ("return " ++ (← s.expression c value))))

/-- An `except` header. -/
def exceptHeader (c : Conversion) (s : State) (l : Classified) : State × Code :=
  let name := if (l.group 2).isEmpty then ("e" : Text) else l.group 2
  let typed := match c with
    | .toJava => "Exception " ++ name
    | .toPhp => "Exception $" ++ name
    | _ => name
  header s ("\x7d catch (" ++ typed ++ ")") .block [name]

/-- A plain error that is raised. -/
def plainError : Pattern :=
  atStart ++ keyword ["Exception", "ValueError", "TypeError", "RuntimeError", "KeyError",
    "IndexError"] ++ "("

/-- An error by its name. -/
def anyError : Pattern :=
  atStart ++ many isWord ++ keyword ["Exception", "Error"] ++ "("

/-- The raised value with the name of its class respelled. -/
def raisedError (c : Conversion) (t : Text) : Text :=
  match c with
  | .toJava => anyError.replaceWith "RuntimeException(" t
  | .toPhp => anyError.replaceWith "Exception(" t
  | _ => plainError.replaceWith "Error(" t

/-- A `raise` statement. -/
def raiseLine (c : Conversion) (s : State) (l : Classified) : Visit := do
  match l.group 1 with
  | [] => return (s, .line (if c = .toPhp then "throw $e;" else "throw e;"))
  | value =>
    return (s, .line (s.terminate ("throw new " ++ (← s.expression c (raisedError c value)))))

/-- The arguments that are printed. -/
def printArguments (c : Conversion) (s : State) (t : Text) : Except Fault (List Text) :=
  ((splitArguments t).filter fun a => !Grammar.Python.printOption.matchesStart a).mapM
    (s.expression c)

/-- A line that prints. -/
def printLine (c : Conversion) (s : State) (l : Classified) : Visit := do
  match c with
  | .plain => generic c s l.line
  | .toJava =>
    let arguments ← printArguments c s (l.group 1)
    return (s, .line ("System.out.println(" ++ join " + \" \" + " arguments ++ ");"))
  | .toPhp =>
    match ← printArguments c s (l.group 1) with
    | [] => return (s, .line "echo PHP_EOL;")
    | arguments => return (s, .line ("echo " ++ join " . ' ' . " arguments ++ " . PHP_EOL;"))
  | _ =>
    let arguments ← printArguments c s (l.group 1)
    return (s, .line (s.terminate ("console.log(" ++ join ", " arguments ++ ")")))

end CodeConverter.Indent

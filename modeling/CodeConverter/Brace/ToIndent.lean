import CodeConverter.Brace.State
import CodeConverter.Parameter

/-!
# Brace sources written with indentation

Headers end in a colon and braces disappear. Control structures are the same for all source
languages; declarations depend on the language.
-/

namespace CodeConverter.Brace.ToIndent

open Text Pattern

/-- A header with its colon. -/
def header (s : State) (line text : Text) (scope : Scope) : State × Code :=
  (s.openBlock line scope, .line (text ++ ":"))

/-- Whether a text ends inside an unfinished list, call or object literal. -/
def opensLiteral (t : Text) : Bool :=
  endsIn (fun c => c = '[' || c = '(') t ||
    (endsIn (· = '{') t && !Block.isHeader (strip t.dropLast))

/-- Opens a scope for a literal that goes on. -/
def trackLiteral (s : State) (value : Text) : State :=
  if opensLiteral value then s.push .literal else s

/-- A bare key of an object literal. -/
def objectKey : Pattern :=
  atStart ++ group 1 word ++ blanks ++ ":" ++ blanks

/-- A statement without its semicolons. -/
def withoutSemicolons (t : Text) : Text :=
  dropEndWhile (· = ';') t

/-- A statement that counts a variable up or down, written as an assignment. -/
def incrementAssignment? (t : Text) : Option Text :=
  (Grammar.increment.matchStart t).map fun m =>
    let target := (m.group? 1).getD (m.group 4)
    let operator := ((m.group? 2).getD (m.group 3)).take 1
    target ++ " " ++ operator ++ "= 1"

/-- A line of no particular form. -/
def generic (c : Conversion) (s : State) (line : Text) : Visit := do
  if s.inLiteral && Grammar.literalClose.matchesStart line then
    let (_, s) ← s.closeBlock c
    return (s, .line (withoutSemicolons line))
  let text :=
    if s.inLiteral then objectKey.replaceBy (fun m => "'" ++ m.group 1 ++ "': ") line else line
  if opensLiteral text then
    return (s.push .literal, .line (← c.expression text))
  if endsIn (· = '{') text then
    return header s line (← c.expression (stripEnd text.dropLast)) .block
  let text := stripEnd (withoutSemicolons text)
  match incrementAssignment? text with
  | some step => return (s, .line step)
  | none => return (s, .line (← c.expression text))

/-- A header with a condition. -/
def conditionHeader (c : Conversion) (s : State) (l : Classified) (start : Text) : Visit := do
  return header s l.line (start ++ (← c.expression (l.group 1))) .block

/-- A counting loop, written over a range if there is one. -/
def forHeader (c : Conversion) (s : State) (l : Classified) (h : Loop.Header) : Visit := do
  match ← Loop.rangeArguments h with
  | none => generic c s l.line
  | some arguments =>
      return header s l.line ("for " ++ h.name ++ " in range(" ++ arguments ++ ")") .block

/-- A `return` statement. -/
def returnLine (c : Conversion) (s : State) (l : Classified) : Visit := do
  let value := strip (withoutSemicolons (l.group 1))
  if value.isEmpty then return (s, .line "return")
  return (s, .line ("return " ++ (← c.expression value)))

/-- A `catch` header. -/
def catchHeader (s : State) (l : Classified) : State × Code :=
  match l.group 2 with
  | [] => header s l.line "except Exception" .block
  | name => header s l.line ("except Exception as " ++ name) .block

/-- An opening brace on a line of its own. -/
def openBrace (s : State) : State × Code :=
  if s.awaitingBrace then ({ s with awaitingBrace := false }, .nothing)
  else (s.push .block, .nothing)

/-- A closing brace. -/
def closeBrace (c : Conversion) (s : State) (line : Text) : Visit := do
  let literal := s.inLiteral
  let (_, s) ← s.closeBlock c
  return (s, if literal then .line (withoutSemicolons line) else .nothing)

/-- A class header. Only conversions that remember class names note it. -/
def classHeader (c : Conversion) (s : State) (l : Classified) : State × Code :=
  let s := if c.remembersClasses then s.enterClass (l.group 1) else s
  match l.group 2 with
  | [] => header s l.line ("class " ++ l.group 1) .classBody
  | base => header s l.line ("class " ++ l.group 1 ++ "(" ++ base ++ ")") .classBody

/-- The header of a function. -/
def definition (s : State) (line name : Text) (parameters : List Text) : State × Code :=
  header s line ("def " ++ name ++ "(" ++ join ", " parameters ++ ")") .block

/-- A definition marked as not bound to an object. -/
def staticDefinition (s : State) (line name : Text) (parameters : List Text) : State × Code :=
  match definition s line name parameters with
  | (s, .line text) => (s, .lines ["@staticmethod", text])
  | other => other

/-- A definition inside or outside a class: inside, it is static or takes the receiver first. -/
def member (s : State) (line name : Text) (isStatic : Bool) (parameters : List Text) :
    State × Code :=
  if !s.inClassBody then definition s line name parameters
  else if isStatic then staticDefinition s line name parameters
  else definition s line name ("self" :: parameters)

/-- The parameters of a JavaScript function. -/
def javascriptParameters (t : Text) : List Text :=
  match Parameter.javascriptToPython t with
  | [] => []
  | parameters => [parameters]

/-- The header of a constructor. -/
def constructorHeader (c : Conversion) (s : State) (l : Classified) : Visit := do
  match c with
  | .javaToPython =>
    if !s.inClassBody then generic c s l.line
    else if l.group 1 ≠ (← innermost s.classNames) then generic c s l.line
    else return definition s l.line "__init__" ("self" :: Parameter.javaToPython (l.group 2))
  | .phpToPython =>
    return definition s l.line "__init__" ("self" :: (← Parameter.phpToPython (l.group 2)))
  | _ => return definition s l.line "__init__" ("self" :: javascriptParameters (l.group 1))

/-- The header of a method. -/
def methodHeader (c : Conversion) (s : State) (l : Classified) : Visit := do
  match c with
  | .javaToPython =>
    return member s l.line (l.group 2) ((words (l.group 1)).contains "static".toList)
      (Parameter.javaToPython (l.group 3))
  | _ =>
    if s.inClassBody then
      return member s l.line (l.group 2) (l.group? 1).isSome (javascriptParameters (l.group 3))
    generic c s l.line

/-- The header of a function. -/
def functionHeader (c : Conversion) (s : State) (l : Classified) : Visit := do
  match c with
  | .phpToPython =>
    let parameters ← Parameter.phpToPython (l.group 3)
    return member s l.line (l.group 2) ((words (l.group 1)).contains "static".toList) parameters
  | _ => return definition s l.line (l.group 1) (javascriptParameters (l.group 2))

/-- A variable bound to a function given by an expression. -/
def lambda (c : Conversion) (s : State) (l : Classified) : Visit := do
  let given := if (l.group 2).isEmpty then l.group 3 else l.group 2
  let body ← c.expression (l.group 4)
  match Parameter.javascriptToPython given with
  | [] => return (s, .line (l.group 1 ++ " = lambda: " ++ body))
  | parameters => return (s, .line (l.group 1 ++ " = lambda " ++ parameters ++ ": " ++ body))

/-- The start of a new array with its items. -/
def arrayCreation : Pattern :=
  atStart ++ "new" ++ gap ++ many1 (wordOr ".") ++ "[]" ++ .star "[]" ++ blanks ++ .ahead "\x7b"

/-- A Java initializer: array elements in braces are written as a list. -/
def javaInitializer (value : Text) : Text :=
  let value := arrayCreation.replaceWith [] value
  if startsWith value "\x7b" && endsWith value "\x7d" then "[" ++ (value.drop 1).dropLast ++ "]"
    else value

/-- A declaration of a variable. -/
def variableLine (c : Conversion) (s : State) (l : Classified) : Visit := do
  match l.group 2 with
  | [] => return (s, .line (l.group 1 ++ " = None"))
  | value =>
    let value := if c = .javaToPython then javaInitializer value else value
    return (trackLiteral s value, .line (l.group 1 ++ " = " ++ (← c.expression value)))

/-- A property of a class. -/
def propertyLine (c : Conversion) (s : State) (l : Classified) : Visit := do
  match l.group 2 with
  | [] => return (s, .line (l.group 1 ++ " = None"))
  | value => return (s, .line (l.group 1 ++ " = " ++ (← c.expression value)))

/-- A loop over the elements of a collection. -/
def forEachHeader (c : Conversion) (s : State) (l : Classified) : Visit := do
  return header s l.line ("for " ++ l.group 1 ++ " in " ++ (← c.expression (l.group 2))) .block

/-- A loop over the values, or the keys and values, of an array. -/
def foreachHeader (c : Conversion) (s : State) (l : Classified) : Visit := do
  let items ← c.expression (l.group 1)
  match l.group 2 with
  | [] => return header s l.line ("for " ++ l.group 3 ++ " in " ++ items) .block
  | key => return header s l.line ("for " ++ key ++ ", " ++ l.group 3 ++ " in " ++ items ++
      ".items()") .block

/-- The arguments of a formatted print: the format applied to the other arguments. -/
def formatArguments (arguments : Text) : Except Fault Text :=
  match splitArguments arguments with
  | [] => .error .missingFormat
  | [_] => .ok arguments
  | format :: values => .ok (format ++ " % (" ++ join ", " values ++ ",)")

/-- A line of Java that prints. -/
def javaPrint (c : Conversion) (s : State) (l : Classified) : Visit := do
  let arguments ← c.expression (l.group 2)
  if l.group 1 = "println".toList then return (s, .line ("print(" ++ arguments ++ ")"))
  if arguments.isEmpty then return (s, .line "print(end='')")
  let arguments ← if l.group 1 = "printf".toList then formatArguments arguments else pure arguments
  return (s, .line ("print(" ++ arguments ++ ", end='')"))

/-- A line that prints. -/
def printLine (c : Conversion) (s : State) (l : Classified) : Visit := do
  match c with
  | .javaToPython => javaPrint c s l
  | _ => return (s, .line ("print(" ++ (← c.expression (l.group 1)) ++ ")"))

/-- A line feed at the end of what is printed. -/
def finalLineFeed : Pattern :=
  blanks ++ "." ++ blanks ++ keyword ["\"\\n\"", "PHP_EOL"] ++ atEnd

/-- A PHP print statement. The line feed at its end is what a print call adds anyway. -/
def echoLine (c : Conversion) (s : State) (l : Classified) : Visit := do
  let value := finalLineFeed.replaceWith [] (Expression.ToPython.unwrap (l.group 1))
  if value = "\"\\n\"".toList || value = "PHP_EOL".toList then return (s, .line "print()")
  let parts ← (splitArguments value).mapM c.expression
  return (s, .line ("print(" ++ join ", " parts ++ ")"))

/-- Visits a line by its kind. -/
def visit (c : Conversion) (s : State) (l : Classified) : Visit :=
  match l.kind with
  | .ifHeader => conditionHeader c s l "if "
  | .elseIfHeader => conditionHeader c s l "elif "
  | .elseHeader => pure (header s l.line "else" .block)
  | .forHeader =>
    match l.found with
    | some m => forHeader c s l (.ofMatch m)
    | none => generic c s l.line
  | .whileHeader => conditionHeader c s l "while "
  | .returnLine => returnLine c s l
  | .tryHeader => pure (header s l.line "try" .block)
  | .catchHeader => pure (catchHeader s l)
  | .finallyHeader => pure (header s l.line "finally" .block)
  | .openBrace => pure (openBrace s)
  | .closeBrace => closeBrace c s l.line
  | .importLine => pure (s, .nothing)
  | .annotationLine => pure (s, .nothing)
  | .namespaceLine => pure (s, .nothing)
  | .classHeader => pure (classHeader c s l)
  | .constructorHeader => constructorHeader c s l
  | .methodHeader => methodHeader c s l
  | .functionHeader => functionHeader c s l
  | .arrowFunction => functionHeader c s l
  | .lambda => lambda c s l
  | .variableLine => variableLine c s l
  | .propertyLine => propertyLine c s l
  | .constantLine => do return (s, .line (l.group 1 ++ " = " ++ (← c.expression (l.group 2))))
  | .forEachHeader => forEachHeader c s l
  | .foreachHeader => foreachHeader c s l
  | .printLine => printLine c s l
  | .echoLine => echoLine c s l
  | _ => generic c s l.line

end CodeConverter.Brace.ToIndent

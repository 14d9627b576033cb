import CodeConverter.Brace.ToIndent

/-!
# Brace sources written with braces

Headers are respelled and braces are written again, either at the end of the header or on a line
of their own. In the first style a closing brace and the `else`, `catch` or `finally` after it
share a line.
-/

namespace CodeConverter.Brace.ToBrace

open Text Pattern Parameter

/-- A header with its block. -/
def block (c : Conversion) (s : State) (line text : Text) (scope : Scope) : State × Code :=
  (s.openBlock line scope,
    if c.style.braceAlone then .lines [text, "\x7b"] else .line (text ++ " \x7b"))

/-- A header that goes on after a block. -/
def continuedBlock (c : Conversion) (s : State) (line text : Text) : State × Code :=
  if !c.style.braceAlone && (s.output.back?.map strip) = some ['}'] then
    block c { s with output := s.output.pop } line ("\x7d " ++ text) .block
  else block c s line text .block

/-- Characters after which a statement needs no semicolon. -/
def endsStatement (c : Char) : Bool :=
  among ";{}([,:" c

/-- A statement with its semicolon. -/
def terminate (c : Conversion) (s : State) (t : Text) : Text :=
  if !c.style.terminates || s.inLiteral || endsIn endsStatement t then t else t ++ ";"

/-- Whether a text stops inside a list, call or object literal. -/
def opensLiteral (t : Text) : Bool :=
  endsIn (among "\x7b[(") t

/-- A statement that may stop inside a literal: without its semicolon if it does. -/
def valueStatement (c : Conversion) (s : State) (start value : Text) : Visit := do
  let text := start ++ (← c.expression value)
  if opensLiteral value then return (s.push .literal, .line text)
  return (s, .line (text ++ ";"))

/-- A block whose header does not end in a parenthesis. -/
def bareBlock : Pattern :=
  atStart ++ keyword ["switch", "do"] ++ wordEdge

/-- A line of no particular form. -/
def generic (c : Conversion) (s : State) (line : Text) : Visit := do
  if s.inLiteral && Grammar.literalClose.matchesStart line then
    let (_, s) ← s.closeBlock c
    return (s, .line line)
  if endsIn (· = '{') line then
    let head := stripEnd line.dropLast
    if Block.isHeader head || bareBlock.matchesStart head then
      return block c s line (← c.expression head) .block
    return (s.push .literal, .line (← c.expression line))
  if opensLiteral line then
    return (s.push .literal, .line (← c.expression line))
  return (s, .line (terminate c s (← c.expression line)))

/-- The start of a `for` header up to its variable. -/
def loopStart : Pattern :=
  atStart ++ "for" ++ blanks ++ "(" ++ blanks ++
    maybe (many1 (wordOr "<>[]") ++ gap ++ .ahead (word ++ blanks ++ "="))

/-- A counting loop. -/
def forHeader (c : Conversion) (s : State) (line : Text) : Visit := do
  let head := stripEnd (dropEndWhile (· = '{') line)
  let head := loopStart.replaceWith ("for (" ++ c.style.loopDeclaration) head
  return block c s line (← c.expression head) .block

/-- A header with a condition. -/
def conditionHeader (c : Conversion) (s : State) (l : Classified) (start : Text) : Visit := do
  return block c s l.line (start ++ " (" ++ (← c.expression (l.group 1)) ++ ")") .block

/-- An `else if` header. -/
def elseIfHeader (c : Conversion) (s : State) (l : Classified) : Visit := do
  return continuedBlock c s l.line ("else if (" ++ (← c.expression (l.group 1)) ++ ")")

/-- A `return` statement. -/
def returnLine (c : Conversion) (s : State) (l : Classified) : Visit :=
  match strip (ToIndent.withoutSemicolons (l.group 1)) with
  | [] => pure (s, .line "return;")
  | value => valueStatement c s "return " value

/-- A `catch` header. -/
def catchHeader (c : Conversion) (s : State) (l : Classified) : State × Code :=
  let name := if (l.group 2).isEmpty then ("e" : Text) else l.group 2
  continuedBlock c s l.line ("catch (" ++ c.style.catchType ++ name ++ ")")

/-- An opening brace on a line of its own. -/
def openBrace (s : State) : State × Code :=
  if s.awaitingBrace then ({ s with awaitingBrace := false }, .nothing)
  else (s.push .block, .line "\x7b")

/-- A closing brace. -/
def closeBrace (c : Conversion) (s : State) (line : Text) : Visit := do
  let (scope, s) ← s.closeBlock c
  return (s, if scope.any c.hides then .nothing else .line line)

/-- Whether a word is among the modifiers. -/
def hasModifier (modifiers : List Text) (word : String) : Bool :=
  modifiers.contains word.toList

/-- The modifier of a static member. -/
def staticWord (isStatic : Bool) : Text :=
  if isStatic then "static " else ""

/-- The name of the innermost open class, or that of the class around the whole program. -/
def className (s : State) : Text :=
  s.classNames.headD "Main"

/-- A class header with an optional base, given what stands between the two. -/
def classHeader (c : Conversion) (s : State) (l : Classified) (start between base : Text) :
    State × Code :=
  if base.isEmpty then block c s l.line (start ++ l.group 1) .classBody
  else block c s l.line (start ++ l.group 1 ++ between ++ base) .classBody

/-- The type arguments of a base class. -/
def baseArguments : Pattern :=
  "<" ++ anything ++ ">" ++ atEnd

/-- The name of an interface by convention. -/
def interfaceName : Pattern :=
  atStart ++ "I" ++ .char Char.isUpper

/-- The base class of a C# class header: the first entry of its list, unless that is an
interface. -/
def csharpBase (bases : Text) : Except Fault Text :=
  if bases.isEmpty then .ok []
  else match splitArguments bases with
    | [] => .error .emptyBaseList
    | first :: _ =>
      let base := baseArguments.replaceWith [] first
      .ok (if interfaceName.matchesStart base then [] else base)

/-- A class header. The outermost class of a Java source is only a wrapper. -/
def visitClass (c : Conversion) (s : State) (l : Classified) : Visit := do
  let inside := s.enterClass (l.group 1)
  match c with
  | .javaToJavaScript =>
    if s.scopes.any fun scope => scope = .classBody || scope = .wrapper then
      return classHeader c inside l "class " " extends " (l.group 2)
    return (inside.openBlock l.line .wrapper, .nothing)
  | .csharpToJavaScript =>
      return classHeader c inside l "class " " extends " (← csharpBase (l.group 2))
  | .javascriptToCSharp => return classHeader c inside l "public class " " : " (l.group 2)
  | _ => return classHeader c inside l "static class " " extends " (l.group 2)

/-- A C# constructor: a call of the base constructor becomes the first line of the body. -/
def csharpConstructor (c : Conversion) (s : State) (l : Classified) : Visit := do
  if s.classNames.head? ≠ some (l.group 1) then generic c s l.line
  else
    let parameters := join ", " (csharpToJavaScript (l.group 2))
    let (s, code) := block c s l.line ("constructor(" ++ parameters ++ ")") .function
    if l.group 3 ≠ "base".toList then return (s, code)
    let call :=
      List.replicate c.style.indentSize ' ' ++ "super(" ++ (← c.expression (l.group 4)) ++ ");"
    return (s, .lines [code.text?.getD [], call])

/-- A constructor of a Java class. -/
def javaConstructor (c : Conversion) (s : State) (l : Classified) : Visit :=
  if s.classNames.head? ≠ some (l.group 1) then generic c s l.line
  else
    let name := if s.inWrapper then "function " ++ l.group 1 else "constructor"
    pure (block c s l.line (name ++ "(" ++ javaToJavaScript (l.group 2) ++ ")") .function)

/-- The header of a constructor. -/
def constructorHeader (c : Conversion) (s : State) (l : Classified) : Visit :=
  match c with
  | .javaToJavaScript => javaConstructor c s l
  | .csharpToJavaScript => csharpConstructor c s l
  | .javascriptToCSharp =>
    let parameters := join ", " (javascriptToCSharp (l.group 1))
    pure (block c s l.line ("public " ++ className s ++ "(" ++ parameters ++ ")") .function)
  | _ =>
    let parameters := join ", " (javascriptToJava (l.group 1))
    pure (block c s l.line ("public " ++ className s ++ "(" ++ parameters ++ ")") .function)

/-- The signature of a C# function: nested ones are local. -/
def csharpSignature (s : State) (name parameters : Text) : Text :=
  let rest := "object " ++ name ++ "(" ++ join ", " (javascriptToCSharp parameters) ++ ")"
  if s.scopes.contains .function then rest else "public static " ++ rest

/-- A function header. In Java a function named `main` is the entry point. -/
def functionHeader (c : Conversion) (s : State) (l : Classified) : State × Code :=
  match c with
  | .javascriptToCSharp => block c s l.line (csharpSignature s (l.group 1) (l.group 2)) .function
  | _ =>
    if l.group 1 = "main".toList then
      block c { s with hasMain := true } l.line "public static void main(String[] args)" .function
    else
      let parameters := join ", " (javascriptToJava (l.group 2))
      block c s l.line ("public static Object " ++ l.group 1 ++ "(" ++ parameters ++ ")") .function

/-- A function given by an expression. -/
def lambda (c : Conversion) (s : State) (l : Classified) : Visit := do
  let parameters := if (l.group 2).isEmpty then l.group 3 else l.group 2
  return (s,
    .line (csharpSignature s (l.group 1) parameters ++ " => " ++
    (← c.expression (l.group 4)) ++ ";"))

/-- The header of a method, or of a function outside classes. -/
def memberHeader (s : State) (isStatic : Bool) (name parameters : Text) : Text :=
  if s.inClassBody then staticWord isStatic ++ name ++ "(" ++ parameters ++ ")"
  else "function " ++ name ++ "(" ++ parameters ++ ")"

/-- A C# method: without a body it is dropped, with an expression body it stays on one line. -/
def csharpMethod (c : Conversion) (s : State) (l : Classified) : Visit := do
  if (l.group? 5).isSome then return (s, .nothing)
  let header := memberHeader s (hasModifier (words (l.group 1)) "static") (l.group 2)
    (join ", " (csharpToJavaScript (l.group 3)))
  match l.group 4 with
  | [] => return block c s l.line header .function
  | value => return (s, .line (header ++ " \x7b return " ++ (← c.expression value) ++ "; \x7d"))

/-- The header of a method with a result type. -/
def typedMethod (c : Conversion) (s : State) (l : Classified) (type : Text)
    (parameters : List Text) : Visit :=
  if s.inClassBody then
    let start : Text := if (l.group? 1).isSome then "public static " else "public "
    pure (block c s l.line (start ++ type ++ " " ++ l.group 2 ++ "(" ++ join ", " parameters ++ ")")
      .function)
  else generic c s l.line

/-- The header of a method. -/
def methodHeader (c : Conversion) (s : State) (l : Classified) : Visit :=
  match c with
  | .javaToJavaScript =>
    pure (block c s l.line
      (memberHeader s (hasModifier (words (l.group 1)) "static") (l.group 2)
        (javaToJavaScript (l.group 3))) .function)
  | .csharpToJavaScript => csharpMethod c s l
  | .javascriptToCSharp => typedMethod c s l "object" (javascriptToCSharp (l.group 3))
  | _ => typedMethod c s l "Object" (javascriptToJava (l.group 3))

/-- A field of a class. -/
def field (c : Conversion) (s : State) (isStatic : Bool) (name value : Text) : Visit := do
  if value.isEmpty then return (s, .line (staticWord isStatic ++ name ++ ";"))
  return (s, .line (staticWord isStatic ++ name ++ " = " ++ (← c.expression value) ++ ";"))

/-- A declaration outside classes. -/
def localVariable (c : Conversion) (s : State) (isConstant : Bool) (name value : Text) : Visit :=
  let keyword : Text := if isConstant then "const " else "let "
  if value.isEmpty then pure (s, .line (keyword ++ name ++ ";"))
  else valueStatement c s (keyword ++ name ++ " = ") value

/-- A new array of some length. -/
def sizedArray : Pattern :=
  atStart ++ "new" ++ gap ++ word ++ "[" ++ group 1 (many1 inLine) ++ "]" ++ atEnd

/-- The initial value of a Java variable. -/
def javaInitializer (value : Text) : Text :=
  sizedArray.replaceBy (fun m => "new Array(" ++ m.group 1 ++ ").fill(0)")
    (ToIndent.javaInitializer value)

/-- A declaration in Java. -/
def javaVariable (c : Conversion) (s : State) (l : Classified) : Visit :=
  let modifiers := words l.line
  if s.inClassBody then field c s (hasModifier modifiers "static") (l.group 1) (l.group 2)
  else
    let value := if (l.group 2).isEmpty then [] else javaInitializer (l.group 2)
    localVariable c s (hasModifier modifiers "final") (l.group 1) value

/-- A declaration in C#. -/
def csharpVariable (c : Conversion) (s : State) (l : Classified) : Visit :=
  let modifiers := words (l.group 1)
  let isConstant := hasModifier modifiers "const"
  if s.inClassBody then
    field c s (hasModifier modifiers "static" || isConstant) (l.group 2) (l.group 3)
  else localVariable c s isConstant (l.group 2) (l.group 3)

/-- A declaration for C#. -/
def variableForCSharp (c : Conversion) (s : State) (l : Classified) : Visit := do
  let name := l.group 1
  let value := l.group 2
  if value.isEmpty then return (s, .line ("object " ++ name ++ ";"))
  if value = "null".toList || value = "undefined".toList then
    return (s, .line ("object " ++ name ++ " = null;"))
  let respelled ← c.expression value
  if opensLiteral value then return (s.push .literal, .line ("var " ++ name ++ " = " ++ respelled))
  return (s, .line ("var " ++ name ++ " = " ++ Expression.ToCSharp.collection respelled ++ ";"))

/-- A variable declaration for Java. At the top level it is a static field. -/
def variableForJava (c : Conversion) (s : State) (l : Classified) : Visit := do
  let start := staticWord s.scopes.isEmpty
  let name := l.group 1
  if (l.group 2).isEmpty then return (s, .line (start ++ "Object " ++ name ++ ";"))
  let value ← c.expression (l.group 2)
  if opensLiteral value then
    return (s.push .literal, .line (start ++ "Object " ++ name ++ " = " ++ value))
  let type := ((Literal.Kind.of? value).map TypeName.javaLiteral).getD "Object"
  return (s,
    .line (start ++ type ++ " " ++ name ++ " = " ++ Expression.ToJava.collection value ++ ";"))

/-- A declaration of a variable. -/
def variableLine (c : Conversion) (s : State) (l : Classified) : Visit :=
  match c with
  | .javaToJavaScript => javaVariable c s l
  | .csharpToJavaScript => csharpVariable c s l
  | .javascriptToCSharp => variableForCSharp c s l
  | _ => variableForJava c s l

/-- A loop over the elements of a collection. -/
def forEachHeader (c : Conversion) (s : State) (l : Classified) : Visit := do
  let items ← c.expression (l.group 2)
  let name := l.group 1
  match c with
  | .javascriptToCSharp =>
      return block c s l.line ("foreach (var " ++ name ++ " in " ++ items ++ ")") .block
  | .javascriptToJava =>
      return block c s l.line ("for (Object " ++ name ++ " : " ++ items ++ ")") .block
  | _ => return block c s l.line ("for (const " ++ name ++ " of " ++ items ++ ")") .block

/-- A loop over the keys of an object. -/
def forInHeader (c : Conversion) (s : State) (l : Classified) : Visit := do
  let items ← c.expression (l.group 2)
  return block c s l.line ("foreach (var " ++ l.group 1 ++ " in " ++ items ++ ".Keys)") .block

/-- The arguments of a print statement as one text with blanks between them. -/
def joinedArguments (c : Conversion) (t : Text) : Except Fault Text := do
  return join " + \" \" + " (← (splitArguments t).mapM c.expression)

/-- A line that prints. -/
def printLine (c : Conversion) (s : State) (l : Classified) : Visit := do
  match c with
  | .javaToJavaScript => return (s, .line ("console.log(" ++ (← c.expression (l.group 2)) ++ ");"))
  | .csharpToJavaScript =>
      return (s, .line ("console.log(" ++ (← c.expression (l.group 1)) ++ ");"))
  | .javascriptToCSharp =>
      return (s, .line ("Console.WriteLine(" ++ (← joinedArguments c (l.group 1)) ++ ");"))
  | _ => return (s, .line ("System.out.println(" ++ (← joinedArguments c (l.group 1)) ++ ");"))

/-- A namespace. One that ends in a semicolon opens no scope. -/
def namespaceLine (s : State) (l : Classified) : State × Code :=
  if l.group 1 = [';'] then (s, .nothing) else (s.openBlock l.line .silent, .nothing)

/-- A property of a class. -/
def propertyLine (c : Conversion) (s : State) (l : Classified) : Visit :=
  field c s (hasModifier (words (l.group 1)) "static") (l.group 2) (l.group 3)

/-- Visits a line by its kind. -/
def visit (c : Conversion) (s : State) (l : Classified) : Visit :=
  match l.kind with
  | .ifHeader => conditionHeader c s l "if"
  | .elseIfHeader => elseIfHeader c s l
  | .elseHeader => pure (continuedBlock c s l.line "else")
  | .forHeader => forHeader c s l.line
  | .whileHeader => conditionHeader c s l "while"
  | .returnLine => returnLine c s l
  | .tryHeader => pure (block c s l.line "try" .block)
  | .catchHeader => pure (catchHeader c s l)
  | .finallyHeader => pure (continuedBlock c s l.line "finally")
  | .openBrace => pure (openBrace s)
  | .closeBrace => closeBrace c s l.line
  | .importLine => pure (s, .nothing)
  | .usingLine => pure (s, .nothing)
  | .annotationLine => pure (s, .nothing)
  | .attributeLine => pure (s, .nothing)
  | .namespaceLine => pure (namespaceLine s l)
  | .interfaceHeader => pure (s.openBlock l.line .skipped, .nothing)
  | .classHeader => visitClass c s l
  | .mainHeader => pure (s.openBlock l.line .silent, .nothing)
  | .constructorHeader => constructorHeader c s l
  | .functionHeader => pure (functionHeader c s l)
  | .arrowFunction => pure (functionHeader c s l)
  | .lambda => lambda c s l
  | .methodHeader => methodHeader c s l
  | .variableLine => variableLine c s l
  | .propertyLine => propertyLine c s l
  | .forEachHeader => forEachHeader c s l
  | .forInHeader => forInHeader c s l
  | .printLine => printLine c s l
  | _ => generic c s l.line

end CodeConverter.Brace.ToBrace

import CodeConverter.Indent.Statement

/-!
# Declarations of an indented source

Classes, functions and assignments. The first assignment to a name in the open blocks declares it.
-/

namespace CodeConverter.Indent

open Text Parameter

/-- The parameters of a function for JavaScript, TypeScript, Java or PHP. -/
def parameters (c : Conversion) (s : State) (t : Text) : Except Fault (List Text) :=
  match c with
  | .toTypeScript => writeEach (pythonToTypeScriptOne (s.expression c)) t
  | .toJava => pure (pythonToJava t)
  | .toPhp => writeEach (pythonToPhpOne (s.expression c)) t
  | _ => writeEach (pythonToJavaScriptOne (s.expression c)) t

/-- The header of a class. -/
def classHeader (c : Conversion) (s : State) (l : Classified) : Visit :=
  if c = .plain then generic c s l.line
  else
    let base := strip (l.group 2)
    let start : Text := if c = .toJava then "public class " else "class "
    let s := if c = .toJava then { s with classNames := l.group 1 :: s.classNames } else s
    let extension : Text :=
      if base.isEmpty || base = "object".toList then [] else " extends " ++ base
    pure (header s (start ++ l.group 1 ++ extension) .classBody [])

/-- A function header without types. A method starts with its own words, and a constructor has a
name of its own. -/
def untypedFunction (c : Conversion) (s : State) (l : Classified) (constructor : Text)
    (static method : String) : Visit := do
  let given ← parameters c s (l.group 2)
  let (isStatic, s) := takeStatic s
  let name := l.group 1
  let list := "(" ++ join ", " given ++ ")"
  let text : Text :=
    if ← s.inClassBody then
      let name := if name = "__init__".toList then constructor else name
      (if isStatic then static else method) ++ name ++ list
    else "function " ++ name ++ list
  return header s text .function (names (l.group 2))

/-- The header of a function in TypeScript. -/
def typescriptFunction (c : Conversion) (s : State) (l : Classified) : Visit := do
  let given ← parameters c s (l.group 2)
  let (isStatic, s) := takeStatic s
  let name := l.group 1
  let list := "(" ++ join ", " given ++ ")"
  let result : Text := if (l.group 3).isEmpty then [] else ": " ++ TypeName.typescript (l.group 3)
  let text : Text :=
    if ← s.inClassBody then
      if name = "__init__".toList then "constructor" ++ list
      else (if isStatic then "public static " else "public ") ++ name ++ list ++ result
    else "function " ++ name ++ list ++ result
  return header s text .function (names (l.group 2))

/-- A function header for Java. Without an annotation the result type is settled when the function
is closed. -/
def javaFunction (s : State) (l : Classified) : Visit := do
  let name := l.group 1
  let list := join ", " (pythonToJava (l.group 2))
  let annotated := !(l.group 3).isEmpty
  let result : Text := if annotated then TypeName.java (l.group 3) else "Object"
  let (isStatic, s) := takeStatic s
  let inClass ← s.inClassBody
  let isConstructor := name = "__init__".toList
  let isMain := name = "main".toList && list.isEmpty
  let isTyped := annotated || isConstructor || (isMain && !inClass)
  let s := { s with untyped := (if isTyped then none else some s.output.size) :: s.untyped }
  let text : Text ←
    if inClass then
      if isConstructor then pure ("public " ++ (← innermost s.classNames) ++ "(" ++ list ++ ")")
      else pure ((if isStatic then "public static " else "public ") ++ result ++ " " ++ name ++
      "(" ++ list ++ ")")
    else if isMain then pure "public static void main(String[] args)".toList
    else pure ("public static " ++ result ++ " " ++ name ++ "(" ++ list ++ ")")
  return header s text .function (names (l.group 2))

/-- The header of a function. -/
def functionHeader (c : Conversion) (s : State) (l : Classified) : Visit :=
  match c with
  | .plain => generic c s l.line
  | .toJavaScript => untypedFunction c s l "constructor" "static " ""
  | .toTypeScript => typescriptFunction c s l
  | .toJava => javaFunction s l
  | .toPhp => untypedFunction c s l "__construct" "public static function " "public function "

/-- The guard of the main code. In Java it is the entry point, elsewhere a silent block. -/
def mainGuard (c : Conversion) (s : State) : State × Code :=
  if c = .toJava then
    header { s with untyped := none :: s.untyped } "public static void main(String[] args)"
    .function []
  else (s.announce .silent [], .nothing)

/-- The TypeScript type of a variable, if its annotation or value tells it. -/
def typescriptType? (hint : Option Text) (value : Text) : Option Text :=
  match hint with
  | some a => some (TypeName.typescript a)
  | none => (Literal.Kind.of? value).map TypeName.typescriptLiteral

/-- A variable with its type and value. -/
def typedVariable (target : Text) (type : Option Text) (value : Text) : Text :=
  match type with
  | some (c :: type) => target ++ ": " ++ (c :: type) ++ " = " ++ value
  | _ => target ++ " = " ++ value

/-- An assignment in JavaScript and TypeScript. -/
def javascriptAssignment (c : Conversion) (s : State) (l : Classified) : Visit := do
  let target := l.group 1
  let value ← s.expression c (l.group 3)
  let type := if c = .toTypeScript then typescriptType? (l.group? 2) value else none
  if ← s.inClassBody then return (s, .line (s.terminate (typedVariable target type value)))
  let (isNew, s) ← s.declare target
  if isNew then return (s, .line (s.terminate ("let " ++ typedVariable target type value)))
  return (s, .line (s.terminate ((← s.expression c target) ++ " = " ++ value)))

/-- The type of a Java variable. -/
def javaType (hint : Option Text) (value : Text) : Text :=
  match hint with
  | some a => TypeName.java a
  | none => ((Literal.Kind.of? value).map TypeName.javaLiteral).getD "Object"

/-- An assignment in Java. -/
def javaAssignment (c : Conversion) (s : State) (l : Classified) : Visit := do
  let target := l.group 1
  let value := Expression.ToJava.collection (← s.expression c (l.group 3))
  let declaration := javaType (l.group? 2) (l.group 3) ++ " " ++ target ++ " = " ++ value
  if ← s.inClassBody then return (s, .line (s.terminate ("public " ++ declaration)))
  let (isNew, s) ← s.declare target
  if isNew then return (s, .line (s.terminate declaration))
  return (s, .line (s.terminate ((← s.expression c target) ++ " = " ++ value)))

/-- An assignment in PHP. -/
def phpAssignment (c : Conversion) (s : State) (l : Classified) : Visit := do
  let target := l.group 1
  if ← s.inClassBody then
    return (s,
      .line (s.terminate ("public $" ++ target ++ " = " ++ (← s.expression c (l.group 3)))))
  let (_, s) ← s.declare target
  let left ← s.expression c target
  return (s, .line (s.terminate (left ++ " = " ++ (← s.expression c (l.group 3)))))

/-- An assignment. -/
def assignment (c : Conversion) (s : State) (l : Classified) : Visit :=
  match c with
  | .plain => generic c s l.line
  | .toJava => javaAssignment c s l
  | .toPhp => phpAssignment c s l
  | _ => javascriptAssignment c s l

/-- Visits a line by its kind. -/
def visit (c : Conversion) (s : State) (l : Classified) : Visit :=
  match l.kind with
  | .importLine => pure (asComment s l.line)
  | .decoratorLine => pure (decoratorLine s l)
  | .classHeader => classHeader c s l
  | .functionHeader => functionHeader c s l
  | .mainGuard => pure (mainGuard c s)
  | .ifHeader => conditionHeader c s l "if "
  | .elifHeader => conditionHeader c s l "\x7d else if "
  | .elseHeader => pure (header s "\x7d else" .block [])
  | .rangeForHeader => rangeForHeader c s l
  | .forHeader => forHeader c s l
  | .whileHeader => conditionHeader c s l "while "
  | .printLine => printLine c s l
  | .assignment => assignment c s l
  | .returnLine => returnLine c s l
  | .tryHeader => pure (header s "try" .block [])
  | .exceptHeader => pure (exceptHeader c s l)
  | .finallyHeader => pure (header s "\x7d finally" .block [])
  | .passLine => pure (s, .nothing)
  | .raiseLine => raiseLine c s l
  | _ => generic c s l.line

end CodeConverter.Indent

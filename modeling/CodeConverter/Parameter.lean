import CodeConverter.Expression.ToPhp
import CodeConverter.Expression.ToPython
import CodeConverter.TypeName

/-!
# Parameter lists

Each list is split at its commas and written for a target language: types and passing modes are
dropped or added, a rest parameter gets its mark, and the receiver of a Python method is dropped.
-/

namespace CodeConverter.Parameter

open Text Pattern

/-- The mark of a rest parameter. -/
def restMark : Text := "..."

/-- JavaScript parameters for Python. -/
def javascriptToPython (t : Text) : Text :=
  join ", " ((splitArguments t).map fun p =>
    match dropPrefix? restMark p with
    | some name => "*" ++ name
    | none => p)

/-- JavaScript parameters for C#, all of type `object`. -/
def javascriptToCSharp (t : Text) : List Text :=
  (splitArguments t).map fun p =>
    match dropPrefix? restMark p with
    | some name => "params object[] " ++ name
    | none => "object " ++ p

/-- JavaScript parameters for Java, all of type `Object`, without default values. -/
def javascriptToJava (t : Text) : List Text :=
  (splitArguments t).map fun p =>
    let name := strip (cut '=' p).1
    match dropPrefix? restMark name with
    | some name => "Object... " ++ name
    | none => "Object " ++ name

/-- Java parameters for Python. -/
def javaToPython (t : Text) : List Text :=
  (splitArguments t).filterMap fun p => (words p).getLast?.map fun name => name.dropWhile (· = '.')

/-- The names of Java parameters, for JavaScript. -/
def javaToJavaScript (t : Text) : Text :=
  join ", " ((splitArguments t).filterMap fun p =>
    (words p).getLast?.map fun name => if includes p restMark then restMark ++ name else name)

/-- A C# parameter for JavaScript: its name, with its default value or rest mark. -/
def csharpParameter (p : Text) : Option Text :=
  let (head, default) := cut '=' p
  match words head with
  | [] => none
  | mode :: rest =>
    let name := (mode :: rest).getLastD []
    if mode = "params".toList then some (restMark ++ name)
    else if default.isEmpty then some name
    else some (name ++ " = " ++ strip default)

/-- C# parameters for JavaScript. -/
def csharpToJavaScript (t : Text) : List Text :=
  (splitArguments t).filterMap csharpParameter

/-- What stands before the name of a PHP parameter: modifiers, type, and marks. -/
def phpParameterStart : Pattern :=
  atStart ++ modifiers ["public", "private", "protected", "readonly"] ++
    maybe (maybe "?" ++ many1 (wordOr "\\") ++ gap) ++ maybe "&" ++ maybe "..."

/-- PHP parameters for Python. -/
def phpToPython (t : Text) : Except Fault (List Text) :=
  (splitArguments t).mapM fun p => Expression.ToPython.ofPhp (phpParameterStart.replaceWith [] p)

/-- Whether a parameter is the receiver of a method. -/
def isReceiver (name : Text) : Bool :=
  name = "self".toList || name = "cls".toList

/-- The bare names of the parameters, without annotations, default values and stars. -/
def names (t : Text) : List Text :=
  (splitArguments t).filterMap fun p =>
    let name := (strip (p.takeWhile (except ":="))).dropWhile (· = '*')
    if name.isEmpty || isReceiver name then none else some name

/-- A parameter cut into its name, annotation and default value. -/
structure Parts where
  name : Text
  hint : Text
  default : Text

/-- The parts of a parameter. -/
def Parts.of (p : Text) : Parts :=
  let (head, default) := cut '=' p
  let (name, hint) := cut ':' head
  ⟨strip name, hint, default⟩

/-- A Python parameter for JavaScript, given the respelling of expressions. -/
def pythonToJavaScriptOne (expression : Text → Except Fault Text) (p : Parts) : Except Fault Text :=
  match p.name with
  | '*' :: '*' :: name => pure (name ++ " = {}")
  | '*' :: name => pure ("..." ++ name)
  | name =>
    if p.default.isEmpty then pure name
    else do return name ++ " = " ++ (← expression (strip p.default))

/-- A Python parameter for TypeScript, given the respelling of expressions. -/
def pythonToTypeScriptOne (expression : Text → Except Fault Text) (p : Parts) : Except Fault Text :=
  let kind := TypeName.typescript p.hint
  match p.name with
  | '*' :: '*' :: name => pure (name ++ ": Record<string, any> = {}")
  | '*' :: name => pure ("..." ++ name ++ ": " ++ kind ++ "[]")
  | name =>
    if p.default.isEmpty then pure (name ++ ": " ++ kind)
    else do return name ++ ": " ++ kind ++ " = " ++ (← expression (strip p.default))

/-- A parameter for PHP. -/
def pythonToPhpOne (expression : Text → Except Fault Text) (p : Parts) : Except Fault Text :=
  match p.name with
  | '*' :: name => pure ("...$" ++ name.dropWhile (· = '*'))
  | name =>
    if p.default.isEmpty then pure ("$" ++ name)
    else do return "$" ++ name ++ " = " ++ (← expression (strip p.default))

/-- All parameters but the receiver, each written by `one`. -/
def writeEach (one : Parts → Except Fault Text) (t : Text) : Except Fault (List Text) :=
  (((splitArguments t).map Parts.of).filter fun p => !isReceiver p.name).mapM one

/-- Parameters for Java. -/
def pythonToJava (t : Text) : List Text :=
  (splitArguments t).filterMap fun p =>
    let parts := Parts.of p
    let name := parts.name.dropWhile (· = '*')
    if isReceiver name then none
    else if startsWith (strip p) "*" then some ("Object... " ++ name)
    else some (TypeName.java parts.hint ++ " " ++ name)

end CodeConverter.Parameter

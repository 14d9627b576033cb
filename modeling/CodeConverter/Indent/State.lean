import CodeConverter.Expression.ToJava
import CodeConverter.Grammar.Python
import CodeConverter.Line.Machine
import CodeConverter.Parameter

/-!
# Indented sources: conversions and their state

In Python the width of the blanks before a line says to which block it belongs. A conversion keeps
the widths of the open blocks, and beside them the kind of each block and the names first bound in
it. A header announces a block, which is opened by the next line if that is wider.
-/

namespace CodeConverter.Indent

open Text

/-- The kinds of blocks. The outermost one is the module. A silent block is written without braces
and indentation. -/
inductive Scope where
  | module
  | block
  | classBody
  | function
  | silent
  deriving DecidableEq

/-- The name of a kind of block. -/
def Scope.name : Scope → Text
  | .module => "module"
  | .block => "block"
  | .classBody => "class"
  | .function => "function"
  | .silent => "silent"

/-- The conversions from Python. The first one writes braces for no language in particular. -/
inductive Conversion where
  | plain
  | toJavaScript
  | toTypeScript
  | toJava
  | toPhp
  deriving DecidableEq

namespace Conversion

/-- The blanks per level of depth. -/
def indentSize : Conversion → Nat
  | .toJava => 4
  | .toPhp => 4
  | _ => 2

/-- The word that declares the variable of a loop. -/
def loopDeclaration : Conversion → Text
  | .toJava => "int "
  | .toPhp => ""
  | _ => "let "

/-- An expression in the target. -/
def expression (c : Conversion) (known : Text → Bool) (t : Text) : Except Fault Text :=
  match c with
  | .plain => Spelling.symbolExpression false "this." t
  | .toJavaScript => Expression.ToJavaScript.ofPython t
  | .toTypeScript => Expression.ToJavaScript.ofPython t
  | .toJava => Expression.ToJava.ofPython t
  | .toPhp => Expression.ToPhp.ofPython known t

end Conversion

/-- The state of a conversion from an indented source. Stacks have their innermost entry first. -/
structure State where
  output : Array Text
  inComment : Bool
  hasContent : Bool
  widths : List Nat
  /-- The kinds of the open blocks. -/
  scopes : List Scope
  /-- The names first bound in each of the open blocks. -/
  names : List (List Text)
  /-- The kind of the block announced by the last header. -/
  pendingScope : Option Scope
  /-- The names that the announced block brings with it. -/
  pendingNames : List Text
  /-- The decorators that wait for their function. -/
  decorators : List Text
  /-- What ends the open block comment. -/
  commentDelimiter : Option Text
  /-- The number of brackets left open. -/
  brackets : Int
  /-- The number of braces closed by the line at hand. -/
  closed : Nat
  classNames : List Text
  /-- For each open function, where its header stands in the output if its result type is still to
  be settled. -/
  untyped : List (Option Nat)

namespace State

/-- The state before the first line. -/
def initial : State where
  output := #[]
  inComment := false
  hasContent := false
  widths := [0]
  scopes := [.module]
  names := [[]]
  pendingScope := none
  pendingNames := []
  decorators := []
  commentDelimiter := none
  brackets := 0
  closed := 0
  classNames := []
  untyped := []

/-- The nesting depth at which code is written. -/
def depth (s : State) : Nat :=
  (s.scopes.dropLast.filter (· ≠ .silent)).length

/-- Whether the innermost block is a class. -/
def inClassBody (s : State) : Except Fault Bool := do
  return (← innermost s.scopes) = .classBody

/-- Whether an open block binds the name. -/
def isBound (s : State) (name : Text) : Bool :=
  s.names.any (·.contains name)

/-- Whether a name is a variable: bound in an open block or brought by the announced one. -/
def isKnown (s : State) (name : Text) : Bool :=
  s.isBound name || s.pendingNames.contains name

/-- An expression in the target, where some names are known. -/
def expression (c : Conversion) (s : State) (t : Text) : Except Fault Text :=
  c.expression s.isKnown t

/-- Binds a name in the innermost block unless it is bound already. Members and elements are no
names. The answer says whether the name is new. -/
def declare (s : State) (name : Text) : Except Fault (Bool × State) :=
  if name.contains '.' || name.contains '[' || s.isBound name then .ok (false, s)
  else match s.names with
    | [] => .error .emptyStack
    | inner :: outer => .ok (true, { s with names := (name :: inner) :: outer })

/-- Announces a block and the names its header binds. -/
def announce (s : State) (scope : Scope) (names : List Text) : State :=
  { s with pendingScope := some scope, pendingNames := names }

/-- Opens the announced block. -/
def push (s : State) (width : Nat) : State :=
  { s with
    widths := width :: s.widths
    scopes := s.pendingScope.getD .block :: s.scopes
    names := s.pendingNames :: s.names
    pendingScope := none
    pendingNames := [] }

/-- Writes code at a depth. -/
def emit (c : Conversion) (depth : Nat) (code : Code) (s : State) : State :=
  { s with output := CodeConverter.emit c.indentSize depth code s.output }

/-- Writes a closing brace, unless the block closed is silent. -/
def writeClosing (c : Conversion) (scope : Scope) (s : State) : State :=
  if scope = .silent then s
  else { s.emit c s.depth (.line "\x7d") with closed := s.closed + 1 }

/-- Settles the result type of the function just closed: without a returned value it is `void`. -/
def settleResult (s : State) : Except Fault State :=
  match s.untyped with
  | [] => .error .stackUnderflow
  | none :: rest => .ok { s with untyped := rest }
  | some index :: rest =>
    match s.output[index]? with
    | none => .error .noSuchLine
    | some line =>
      let line := replaceFirst " Object " " void " line
      .ok { s with untyped := rest, output := s.output.setIfInBounds index line }

/-- What Java does when a block is closed: forget the class name or settle the result type. -/
def leave (c : Conversion) (scope : Scope) (s : State) : Except Fault State :=
  if c = .toJava then
    match scope with
    | .classBody => do return { s with classNames := ← popped s.classNames }
    | .function => s.settleResult
    | _ => pure s
  else pure s

/-- Closes the innermost block. -/
def pop (c : Conversion) (s : State) : Except Fault State := do
  let scope ← innermost s.scopes
  let s := { s with
    widths := ← popped s.widths
    scopes := ← popped s.scopes
    names := ← popped s.names }
  (s.writeClosing c scope).leave c scope

/-- Closes the announced block, which turned out to be empty. -/
def closeEmpty (c : Conversion) (s : State) : Except Fault State := do
  match s.pendingScope with
  | none => return { s with pendingNames := [] }
  | some scope =>
    let s ← s.leave c scope
    return { s.writeClosing c scope with pendingScope := none, pendingNames := [] }

/-- Closes the blocks wider than a width, at most `n` of them. The outermost block stays open. -/
def closeWider (c : Conversion) (width : Nat) : Nat → State → Except Fault State
  | 0, s => pure s
  | n + 1, s =>
    match s.widths with
    | inner :: _ :: _ =>
      if width < inner then do
        closeWider c width n (← s.pop c)
      else pure s
    | _ => pure s

/-- Closes all blocks but the outermost, at most `n` of them. -/
def closeAll (c : Conversion) : Nat → State → Except Fault State
  | 0, s => pure s
  | n + 1, s =>
    match s.widths with
    | _ :: _ :: _ => do closeAll c n (← s.pop c)
    | _ => pure s

/-- A statement with its semicolon, unless brackets are open. -/
def terminate (s : State) (t : Text) : Text :=
  if s.brackets > 0 || endsIn (fun c => c = ';' || c = '{') t then t else t ++ ";"

/-- A condition in parentheses. -/
def condition (c : Conversion) (s : State) (t : Text) : Except Fault Text := do
  let t ← s.expression c t
  if startsWith t "(" && endsWith t ")" then return t
  return "(" ++ t ++ ")"

end State

/-- The outcome of visiting a line: a new state and code to write. -/
abbrev Visit := Except Fault (State × Code)

end CodeConverter.Indent

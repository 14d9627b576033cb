import CodeConverter.Block
import CodeConverter.Expression.ToJava
import CodeConverter.Grammar.CSharp
import CodeConverter.Grammar.Java
import CodeConverter.Grammar.JavaScript
import CodeConverter.Grammar.Php
import CodeConverter.Line.Machine

/-!
# Brace sources: conversions and their state

A conversion from a language with braces keeps a stack of open scopes, one for every brace that is
open in the source or announced by a header. Silent scopes and wrappers add no indentation and
their braces are not written; everything inside a skipped scope is dropped.
-/

namespace CodeConverter.Brace

open Expression.ToPython

open Text

/-- What an open brace belongs to. -/
inductive Scope where
  | block
  | classBody
  | function
  | literal
  | silent
  | skipped
  | wrapper
  deriving DecidableEq

/-- The name of a kind of scope. -/
def Scope.name : Scope → Text
  | .block => "block"
  | .classBody => "class"
  | .function => "function"
  | .literal => "literal"
  | .silent => "silent"
  | .skipped => "skip"
  | .wrapper => "wrapper"

/-- The conversions from brace sources. The first three know no language: one keeps lines as they
are, the others write blocks by indentation or by braces. -/
inductive Conversion where
  | plain
  | toIndentation
  | toBraces
  | javaToPython
  | javascriptToPython
  | phpToPython
  | javaToJavaScript
  | csharpToJavaScript
  | javascriptToCSharp
  | javascriptToJava
  deriving DecidableEq

/-- How a conversion writes blocks and comments. -/
structure Style where
  sourceComments : List Text
  lineComment : Text
  /-- The delimiters of block comments in the target, if they differ from the source. -/
  blockComment : Option (Text × Text)
  closesBlocks : Bool
  baseDepth : Nat
  /-- The blanks per level of depth. -/
  indentSize : Nat
  braceAlone : Bool
  terminates : Bool
  loopDeclaration : Text
  /-- What stands before the name of a caught exception. -/
  catchType : Text

/-- The style of targets without braces. -/
def Style.indented : Style where
  sourceComments := ["//"]
  lineComment := "#"
  blockComment := some ("\"\"\"", "\"\"\"")
  closesBlocks := false
  baseDepth := 0
  indentSize := 4
  braceAlone := false
  terminates := false
  loopDeclaration := "let "
  catchType := ""

/-- The style of targets with braces. -/
def Style.braced : Style :=
  { Style.indented with lineComment := "//", blockComment := none, closesBlocks := true }

namespace Conversion

/-- How the target is written. -/
def style : Conversion → Style
  | .plain => .indented
  | .toIndentation => .indented
  | .toBraces => .braced
  | .javaToPython => .indented
  | .javascriptToPython => .indented
  | .phpToPython => { Style.indented with sourceComments := ["//", "#"] }
  | .javaToJavaScript => { Style.braced with indentSize := 2 }
  | .csharpToJavaScript => { Style.braced with indentSize := 2 }
  | .javascriptToCSharp =>
    { Style.braced with
      braceAlone := true, terminates := true, loopDeclaration := "int ", catchType := "Exception " }
  | .javascriptToJava =>
    { Style.braced with
      baseDepth := 1, terminates := true, loopDeclaration := "int ", catchType := "Exception " }

/-- The forms of lines of the source. -/
def grammar : Conversion → List LineForm
  | .plain => []
  | .toIndentation => Grammar.cFamily
  | .toBraces => []
  | .javaToPython => Grammar.Java.plain
  | .javascriptToPython => Grammar.JavaScript.withLambdas
  | .phpToPython => Grammar.Php.all
  | .javaToJavaScript => Grammar.Java.withMain
  | .csharpToJavaScript => Grammar.CSharp.all
  | .javascriptToCSharp => Grammar.JavaScript.withKeyLoops
  | .javascriptToJava => Grammar.JavaScript.withoutLambdas

/-- An expression in the target. -/
def expression : Conversion → Text → Except Fault Text
  | .plain, t => pure t
  | .toIndentation, t => ofBraces t
  | .toBraces, t => pure t
  | .javaToPython, t => ofJava t
  | .javascriptToPython, t => ofJavaScript t
  | .phpToPython, t => ofPhp t
  | .javaToJavaScript, t => pure (Expression.ToJavaScript.ofJava t)
  | .csharpToJavaScript, t => pure (Expression.ToJavaScript.ofCSharp t)
  | .javascriptToCSharp, t => pure (Expression.ToCSharp.ofJavaScript t)
  | .javascriptToJava, t => pure (Expression.ToJava.ofJavaScript t)

/-- Whether a scope adds no indentation and its braces are not written. -/
def hides (c : Conversion) : Scope → Bool
  | .silent => true
  | .skipped => true
  | .wrapper => c = .javaToJavaScript
  | _ => false

/-- Whether a scope holds a class whose name is remembered. -/
def endsClass : Conversion → Scope → Bool
  | .javaToPython, .classBody => true
  | .csharpToJavaScript, .classBody => true
  | .javascriptToCSharp, .classBody => true
  | .javascriptToJava, .classBody => true
  | .javaToJavaScript, .classBody => true
  | .javaToJavaScript, .wrapper => true
  | _, _ => false

/-- Whether the names of open classes are kept. -/
def remembersClasses (c : Conversion) : Bool :=
  c.endsClass .classBody

end Conversion

/-- The state of a conversion from a brace source. Stacks have their innermost entry first. -/
structure State where
  output : Array Text
  inComment : Bool
  hasContent : Bool
  scopes : List Scope
  /-- A header was read whose opening brace is still to come. -/
  awaitingBrace : Bool
  classNames : List Text
  /-- An entry point was seen. -/
  hasMain : Bool

namespace State

/-- The state before the first line. -/
def initial : State :=
  ⟨#[], false, false, [], false, [], false⟩

/-- The nesting depth at which code is written. -/
def depth (c : Conversion) (s : State) : Nat :=
  c.style.baseDepth + (s.scopes.filter fun scope => !c.hides scope).length

/-- Whether the innermost scope is a class. -/
def inClassBody (s : State) : Bool :=
  s.scopes.head? = some .classBody

/-- Whether the innermost scope is a literal over several lines. -/
def inLiteral (s : State) : Bool :=
  s.scopes.head? = some .literal

/-- Whether the innermost scope is a class that is not written. -/
def inWrapper (s : State) : Bool :=
  s.scopes.head? = some .wrapper

/-- Opens a scope. -/
def push (s : State) (scope : Scope) : State :=
  { s with scopes := scope :: s.scopes }

/-- Opens the scope of a header, whose brace may be yet to come. -/
def openBlock (s : State) (line : Text) (scope : Scope) : State :=
  { s with
    scopes := scope :: s.scopes
    awaitingBrace := !endsWith (stripEnd line) "\x7b" }

/-- The innermost scope and the state after it is closed. Without an open scope nothing
happens. -/
def closeBlock (c : Conversion) (s : State) : Except Fault (Option Scope × State) :=
  match s.scopes with
  | [] => pure (none, s)
  | scope :: rest => do
    let s := { s with scopes := rest }
    if c.endsClass scope then
      return (some scope, { s with classNames := ← popped s.classNames })
    return (some scope, s)

/-- Remembers the name of a class. -/
def enterClass (s : State) (name : Text) : State :=
  { s with classNames := name :: s.classNames }

/-- Writes code at a depth. -/
def emit (c : Conversion) (depth : Nat) (code : Code) (s : State) : State :=
  { s with output := CodeConverter.emit c.style.indentSize depth code s.output }

end State

/-- The outcome of visiting a line: a new state and code to write. -/
abbrev Visit := Except Fault (State × Code)

end CodeConverter.Brace

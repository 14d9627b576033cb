import CodeConverter.Pattern.Vocabulary

/-!
# Line forms and classification

A grammar is a list of line forms in order of priority. A line has the kind of the first form
whose pattern matches it from its start.
-/

namespace CodeConverter

/-- The kinds of lines. A line of no other kind is `generic`. -/
inductive LineKind where
  | generic
  | ifHeader
  | elseIfHeader
  | elifHeader
  | elseHeader
  | forHeader
  | forEachHeader
  | forInHeader
  | foreachHeader
  | rangeForHeader
  | whileHeader
  | returnLine
  | tryHeader
  | catchHeader
  | exceptHeader
  | finallyHeader
  | openBrace
  | closeBrace
  | classHeader
  | interfaceHeader
  | enumHeader
  | constructorHeader
  | functionHeader
  | methodHeader
  | mainHeader
  | mainGuard
  | arrowFunction
  | lambda
  | variableLine
  | constantLine
  | propertyLine
  | assignment
  | printLine
  | echoLine
  | raiseLine
  | passLine
  | importLine
  | usingLine
  | namespaceLine
  | annotationLine
  | attributeLine
  | decoratorLine
  | typeOnly
  deriving DecidableEq

/-- The name of a kind. -/
def LineKind.name : LineKind → Text
  | .generic => "generic"
  | .ifHeader => "if"
  | .elseIfHeader => "else_if"
  | .elifHeader => "elif"
  | .elseHeader => "else"
  | .forHeader => "for"
  | .forEachHeader => "for_each"
  | .forInHeader => "for_in"
  | .foreachHeader => "foreach"
  | .rangeForHeader => "range_for"
  | .whileHeader => "while"
  | .returnLine => "return"
  | .tryHeader => "try"
  | .catchHeader => "catch"
  | .exceptHeader => "except"
  | .finallyHeader => "finally"
  | .openBrace => "open_brace"
  | .closeBrace => "close_brace"
  | .classHeader => "class"
  | .interfaceHeader => "interface"
  | .enumHeader => "enum"
  | .constructorHeader => "constructor"
  | .functionHeader => "function"
  | .methodHeader => "method"
  | .mainHeader => "main"
  | .mainGuard => "main_guard"
  | .arrowFunction => "arrow_function"
  | .lambda => "lambda"
  | .variableLine => "variable"
  | .constantLine => "const"
  | .propertyLine => "property"
  | .assignment => "assignment"
  | .printLine => "print"
  | .echoLine => "echo"
  | .raiseLine => "raise"
  | .passLine => "pass"
  | .importLine => "import"
  | .usingLine => "using"
  | .namespaceLine => "namespace"
  | .annotationLine => "annotation"
  | .attributeLine => "attribute"
  | .decoratorLine => "decorator"
  | .typeOnly => "skip"

/-- A pattern for lines together with the kind of the lines it matches. -/
structure LineForm where
  kind : LineKind
  pattern : Pattern

/-- A line with its kind and how its form matched. Only a text with a line feed inside can match
not even the form of generic lines. -/
structure Classified where
  kind : LineKind
  line : Text
  groupCount : Nat
  found : Option Match

namespace Classified

/-- The piece of the line remembered under a number, if that part of the form was used. -/
def group? (c : Classified) (number : Nat) : Option Text :=
  c.found.bind (·.group? number)

/-- The piece of the line remembered under a number, empty if that part of the form was not
used. -/
def group (c : Classified) (number : Nat) : Text :=
  (c.group? number).getD []

/-- All pieces of the line remembered by its form. -/
def groups (c : Classified) : Option (List (Option Text)) :=
  c.found.map (·.groups c.groupCount)

end Classified

open Pattern in
/-- Any line. -/
def genericForm : Pattern :=
  atStart ++ group 1 anything ++ atEnd

/-- A line of the form with its pieces. -/
def LineForm.classify? (form : LineForm) (line : Text) : Option Classified :=
  (form.pattern.matchStart line).map fun m => ⟨form.kind, line, form.pattern.groupCount, some m⟩

/-- A line by the first form that it has. -/
def classify (grammar : List LineForm) (line : Text) : Classified :=
  match grammar.findSome? (·.classify? line) with
  | some c => c
  | none => ⟨.generic, line, 1, genericForm.matchStart line⟩

end CodeConverter

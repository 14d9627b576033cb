import CodeConverter.Grammar.CFamily

/-!
# Line forms of C#
-/

namespace CodeConverter.Grammar.CSharp

open Text Pattern

/-- The modifiers of a declaration. -/
def declarationModifiers : Pattern :=
  modifiers ["public", "private", "protected", "internal", "static", "virtual", "override",
    "abstract", "sealed", "async", "readonly", "extern", "new", "partial", "unsafe", "const"]

/-- A type: a name with optional type arguments, array brackets and a nullable mark. -/
def typeName : Pattern :=
  many1 (wordOr ".") ++ maybe ("<" ++ few (except "()") ++ ">") ++
    .star ("[" ++ many (among ",") ++ "]") ++ maybe "?"

/-- A parameter list with at most one level of parentheses inside, remembered under a number. -/
def parameterList (number : Nat) : Pattern :=
  "(" ++ group number
    (many (except "()") ++ .star ("(" ++ many (except "()") ++ ")" ++ many (except "()"))) ++ ")"

/-- No word that starts another statement. -/
def typeStart : Pattern :=
  noneOf ["return", "throw", "new", "else", "await", "yield", "goto", "using", "case"]

/-- The modifiers, type and name of a member. -/
def memberStart : Pattern :=
  atStart ++ group 1 declarationModifiers ++ typeStart ++ typeName ++ gap ++ group 2 word

/-- Type arguments. -/
def typeArguments : Pattern :=
  "<" ++ many (except ">") ++ ">"

/-- A `using` directive. -/
def usingForm : LineForm :=
  ⟨.usingLine, atStart ++ maybe ("global" ++ gap) ++ "using" ++ gap ++ maybe ("static" ++ gap) ++
    many1 (wordOr ".") ++
    maybe (blanks ++ "=" ++ blanks ++ many1 (wordOr ".<>")) ++ blanks ++ ";" ++ atEnd⟩

/-- The header of a namespace. -/
def namespaceForm : LineForm :=
  ⟨.namespaceLine, atStart ++ "namespace" ++ gap ++ many1 (wordOr ".") ++ blanks ++
    group 1 (oneOf [";", maybe "\x7b"]) ++ atEnd⟩

/-- An attribute. -/
def attributeForm : LineForm :=
  ⟨.attributeLine, atStart ++ "[" ++ .char isWord ++ many (wordOr ".") ++
    maybe ("(" ++ anything ++ ")") ++ "]" ++ atEnd⟩

/-- The header of an interface. -/
def interfaceForm : LineForm :=
  ⟨.interfaceHeader, atStart ++ declarationModifiers ++ "interface" ++ gap ++ word⟩

/-- A class header with its name and list of bases. -/
def classForm : LineForm :=
  ⟨.classHeader, atStart ++ declarationModifiers ++ keyword ["class", "struct", "record"] ++ gap ++
    group 1 word ++
    maybe typeArguments ++ maybe (blanks ++ ":" ++ blanks ++ group 2 (few1 (wordBlankOr ".<>,"))) ++
    maybe (gap ++ "where" ++ gap ++ little) ++ headerEnd⟩

/-- A constructor header with its name, parameters and the constructor it calls first. -/
def constructorForm : LineForm :=
  ⟨.constructorHeader,
    atStart ++ modifiers ["public", "private", "protected", "internal", "static"] ++
    group 1 (.char Char.isUpper ++ many isWord) ++ blanks ++ parameterList 2 ++
    maybe (blanks ++ ":" ++ blanks ++ group 3 (keyword ["base", "this"]) ++ blanks ++ "(" ++
    group 4 anything ++ ")") ++ headerEnd⟩

/-- A method: its modifiers, name and parameters, and its expression body or final semicolon. -/
def methodForm : LineForm :=
  ⟨.methodHeader, memberStart ++ maybe typeArguments ++ blanks ++ parameterList 3 ++ blanks ++
    maybe ("where" ++ gap ++ little) ++ blanks ++
    oneOf ["=>" ++ blanks ++ group 4 something ++ blanks ++ ";", group 5 ";",
    maybe "\x7b"] ++ atEnd⟩

/-- A property on one line. -/
def propertyForm : LineForm :=
  ⟨.propertyLine, memberStart ++ blanks ++ "\x7b" ++ blanks ++ keyword ["get", "set", "init"] ++
    wordEdge ++
    many (except "{}") ++ "\x7d" ++
    maybe (blanks ++ "=" ++ blanks ++ group 3 something ++ blanks ++ ";") ++ atEnd⟩

/-- A variable declaration with its modifiers, name and initializer. -/
def variableForm : LineForm :=
  ⟨.variableLine, memberStart ++ blanks ++ maybe ("=" ++ blanks ++ group 3 little) ++ blanks ++
    ";" ++ atEnd⟩

/-- A loop over the elements of a collection. -/
def forEachForm : LineForm :=
  ⟨.forEachHeader, atStart ++ "foreach" ++ blanks ++ "(" ++ blanks ++ typeName ++ gap ++
    group 1 word ++ gap ++ "in" ++ gap ++ group 2 something ++ blanks ++ ")" ++ headerEnd⟩

/-- A line that prints. -/
def printForm : LineForm :=
  ⟨.printLine, atStart ++ "Console." ++ keyword ["WriteLine", "Write"] ++ blanks ++ "(" ++
    group 1 anything ++ ")" ++ blanks ++ ";" ++ atEnd⟩

/-- The grammar. Declarations of members come last, so that they cannot take control lines. -/
def all : List LineForm :=
  [usingForm, namespaceForm, attributeForm, interfaceForm, classForm, constructorForm] ++
    conditionalForms ++
    [forForm, forEachForm, whileForm, printForm] ++ closingForms ++
    [propertyForm, methodForm, variableForm]

end CodeConverter.Grammar.CSharp

import CodeConverter.Grammar.CFamily

/-!
# Line forms of Java
-/

namespace CodeConverter.Grammar.Java

open Text Pattern

/-- The modifiers of a declaration. -/
def declarationModifiers : Pattern :=
  modifiers ["public", "private", "protected", "static", "final", "abstract", "synchronized",
    "native", "default", "transient", "volatile"]

/-- A type. -/
def typeName : Pattern :=
  many1 (wordOr ".") ++ maybe ("<" ++ few (except "()") ++ ">") ++ .star "[]"

/-- A list of declared exceptions and the end of a header. -/
def throwsEnd : Pattern :=
  blanks ++ maybe ("throws" ++ gap ++ few1 (wordBlankOr ".,")) ++ headerEnd

/-- Type arguments. -/
def typeArguments : Pattern :=
  "<" ++ many (except ">") ++ ">"

/-- An import or a package. -/
def importForm : LineForm :=
  ⟨.importLine, atStart ++ keyword ["package", "import"] ++ gap ++ maybe ("static" ++ gap) ++
    many1 (wordOr ".*") ++ blanks ++ ";" ++ atEnd⟩

/-- An annotation. -/
def annotationForm : LineForm :=
  ⟨.annotationLine, atStart ++ "@" ++ word ++ maybe ("(" ++ anything ++ ")") ++ atEnd⟩

/-- The header of a class. -/
def classForm : LineForm :=
  ⟨.classHeader,
    atStart ++ declarationModifiers ++ keyword ["class", "interface", "enum", "record"] ++ gap ++
    group 1 word ++ maybe typeArguments ++
    maybe (gap ++ "extends" ++ gap ++ group 2 (many1 (wordOr ".")) ++ maybe typeArguments) ++
    maybe (gap ++ "implements" ++ gap ++ few1 (wordBlankOr ".<>,")) ++ headerEnd⟩

/-- A constructor header with its name and parameters. -/
def constructorForm : LineForm :=
  ⟨.constructorHeader, atStart ++ maybe (keyword ["public", "private", "protected"] ++ gap) ++
    group 1 (.char Char.isUpper ++ many isWord) ++ blanks ++ "(" ++ group 2 anything ++ ")" ++
    throwsEnd⟩

/-- A method header with its modifiers, name and parameters. -/
def methodForm : LineForm :=
  ⟨.methodHeader,
    atStart ++ group 1 declarationModifiers ++ maybe ("<" ++ many1 (except ">") ++ ">" ++ gap) ++
    noneOf ["return", "new", "else", "throw"] ++ typeName ++ gap ++ group 2 word ++ blanks ++ "(" ++
    group 3 anything ++ ")" ++ throwsEnd⟩

/-- A variable declaration with its name and initializer. -/
def variableForm : LineForm :=
  ⟨.variableLine, atStart ++ declarationModifiers ++ noneOf ["return", "throw", "new", "else"] ++
    typeName ++ gap ++
    group 1 word ++ blanks ++ maybe ("=" ++ blanks ++ group 2 little) ++ blanks ++ ";" ++ atEnd⟩

/-- A loop over the elements of a collection. -/
def forEachForm : LineForm :=
  ⟨.forEachHeader, atStart ++ "for" ++ blanks ++ "(" ++ blanks ++ maybe ("final" ++ gap) ++
    typeName ++ gap ++
    group 1 word ++ blanks ++ ":" ++ blanks ++ group 2 something ++ blanks ++ ")" ++ headerEnd⟩

/-- A print statement with its method and arguments. -/
def printForm : LineForm :=
  ⟨.printLine, atStart ++ "System." ++ keyword ["out", "err"] ++ "." ++
    group 1 (keyword ["println", "print", "printf"]) ++ blanks ++ "(" ++ group 2 anything ++ ")" ++
    blanks ++ maybe ";" ++ atEnd⟩

/-- The header of the entry point. -/
def mainForm : LineForm :=
  ⟨.mainHeader, atStart ++ maybe ("public" ++ gap) ++ "static" ++ gap ++ "void" ++ gap ++ "main" ++
    blanks ++ "(" ++
    blanks ++ maybe ("final" ++ gap) ++ "String" ++ wordEdge ++ many (except ")") ++ ")" ++
    throwsEnd⟩

/-- The forms after the class header and the entry point. -/
def memberForms : List LineForm :=
  [constructorForm, methodForm, variableForm] ++ conditionalForms ++
    [forForm, forEachForm, whileForm, printForm] ++ closingForms

/-- The grammar without an entry point. -/
def plain : List LineForm :=
  [importForm, annotationForm, classForm] ++ memberForms

/-- The grammar that tells the entry point from other methods. -/
def withMain : List LineForm :=
  [importForm, annotationForm, classForm, mainForm] ++ memberForms

end CodeConverter.Grammar.Java

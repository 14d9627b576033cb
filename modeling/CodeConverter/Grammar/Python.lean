import CodeConverter.Line.Form

/-!
# Line forms of Python

The headers of blocks end in a colon.
-/

namespace CodeConverter.Grammar.Python

open Text Pattern

/-- A header with an argument. -/
def argumentHeader (start : Pattern) : Pattern :=
  atStart ++ start ++ gap ++ group 1 something ++ blanks ++ ":" ++ atEnd

/-- A keyword and a colon. -/
def bareHeader (start : Pattern) : Pattern :=
  atStart ++ start ++ blanks ++ ":" ++ atEnd

/-- An import. -/
def importForm : LineForm :=
  ⟨.importLine, atStart ++
    oneOf [
      "import" ++ gap ++ many1 (wordOr "."),
      "from" ++ gap ++ many1 (wordOr ".") ++ gap ++ "import" ++ wordEdge] ++
    anything ++ atEnd⟩

/-- A decorator. -/
def decoratorForm : LineForm :=
  ⟨.decoratorLine, atStart ++ "@" ++ group 1 (many1 (wordOr ".")) ++
    maybe ("(" ++ anything ++ ")") ++ atEnd⟩

/-- A class header with its name and bases. -/
def classForm : LineForm :=
  ⟨.classHeader, atStart ++ "class" ++ gap ++ group 1 word ++ blanks ++
    maybe ("(" ++ group 2 (many (except ")")) ++ ")") ++ blanks ++ ":" ++ atEnd⟩

/-- A function header with its name, parameters and result annotation. -/
def functionForm : LineForm :=
  ⟨.functionHeader, atStart ++ maybe ("async" ++ gap) ++ "def" ++ gap ++ group 1 word ++
    blanks ++ "(" ++
    group 2 anything ++ ")" ++ blanks ++ maybe ("->" ++ blanks ++ group 3 something) ++ blanks ++
    ":" ++ atEnd⟩

/-- The guard of the code that runs when the file is the program. -/
def mainGuardForm : LineForm :=
  ⟨.mainGuard, atStart ++ "if" ++ gap ++ "__name__" ++ blanks ++ "==" ++ blanks ++
    .char (among "'\"") ++ "__main__" ++ .char (among "'\"") ++ blanks ++ ":" ++ atEnd⟩

/-- A `for` header over a range. -/
def rangeForForm : LineForm :=
  ⟨.rangeForHeader, atStart ++ "for" ++ gap ++ group 1 word ++ gap ++ "in" ++ gap ++ "range(" ++
    group 2 anything ++ ")" ++ blanks ++ ":" ++ atEnd⟩

/-- A loop over a collection, with its targets and the collection. -/
def forForm : LineForm :=
  ⟨.forHeader, atStart ++ "for" ++ gap ++ group 1 something ++ gap ++ "in" ++ gap ++
    group 2 something ++ blanks ++ ":" ++ atEnd⟩

/-- A line that prints. -/
def printForm : LineForm :=
  ⟨.printLine, atStart ++ "print(" ++ group 1 anything ++ ")" ++ atEnd⟩

/-- An assignment with its target, annotation and value. -/
def assignmentForm : LineForm :=
  ⟨.assignment, atStart ++
    group 1 (.char nameStart ++ many (wordOr ".") ++ maybe ("[" ++ many (except "]") ++ "]")) ++
    blanks ++
    maybe (":" ++ blanks ++ group 2 (few1 (except "="))) ++ blanks ++ "=" ++
    notAhead "=" ++ blanks ++ group 3 (many1 inLine) ++ atEnd⟩

/-- A statement with an argument. -/
def argumentLine (start : Pattern) : Pattern :=
  atStart ++ start ++ wordEdge ++ blanks ++ group 1 anything ++ atEnd

/-- An exception handler with its class and name. -/
def exceptForm : LineForm :=
  ⟨.exceptHeader, atStart ++ "except" ++ wordEdge ++ blanks ++
    maybe (group 1 (oneOf [many1 (wordOr "."), "(" ++ many (except ")") ++ ")"]) ++
      maybe (gap ++ "as" ++ gap ++ group 2 word)) ++
    blanks ++ ":" ++ atEnd⟩

/-- The grammar. -/
def all : List LineForm :=
  [importForm, decoratorForm, classForm, functionForm, mainGuardForm,
    ⟨.ifHeader, argumentHeader "if"⟩, ⟨.elifHeader, argumentHeader "elif"⟩,
    ⟨.elseHeader, bareHeader "else"⟩,
    rangeForForm, forForm, ⟨.whileHeader, argumentHeader "while"⟩, printForm, assignmentForm,
    ⟨.returnLine, argumentLine "return"⟩, ⟨.tryHeader, bareHeader "try"⟩, exceptForm,
    ⟨.finallyHeader, bareHeader "finally"⟩, ⟨.passLine, atStart ++ "pass" ++ atEnd⟩,
    ⟨.raiseLine, argumentLine "raise"⟩]

/-- A named argument of `print`. -/
def printOption : Pattern :=
  atStart ++ keyword ["sep", "end", "file", "flush"] ++ blanks ++ "="

end CodeConverter.Grammar.Python

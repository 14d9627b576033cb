import CodeConverter.Grammar.CFamily

/-!
# Line forms of JavaScript
-/

namespace CodeConverter.Grammar.JavaScript

open Text Pattern

/-- A word that declares a variable. -/
def declarator : Pattern :=
  keyword ["const", "let", "var"]

/-- The marks of an export. -/
def exportWords : Pattern :=
  maybe ("export" ++ gap ++ maybe ("default" ++ gap))

/-- A declaration up to its name. -/
def declarationStart : Pattern :=
  atStart ++ maybe ("export" ++ gap) ++ declarator ++ gap ++ group 1 word ++ blanks

/-- The header of a class. -/
def classForm : LineForm :=
  ⟨.classHeader, atStart ++ exportWords ++ "class" ++ gap ++ group 1 word ++
    maybe (gap ++ "extends" ++ gap ++ group 2 (many1 (wordOr "."))) ++ headerEnd⟩

/-- The header of a constructor. -/
def constructorForm : LineForm :=
  ⟨.constructorHeader, conditionHeader "constructor"⟩

/-- A function header with its name and parameters. -/
def functionForm : LineForm :=
  ⟨.functionHeader, atStart ++ exportWords ++ maybe ("async" ++ gap) ++ "function" ++ blanks ++
    maybe "*" ++ blanks ++ group 1 word ++ blanks ++ "(" ++ group 2 anything ++ ")" ++ headerEnd⟩

/-- An arrow function with a block. -/
def arrowBlock : Pattern :=
  declarationStart ++ "=" ++ blanks ++ maybe ("async" ++ gap) ++ "(" ++
    group 2 (many (except ")")) ++ ")" ++ blanks ++ "=>" ++ blanks ++ "\x7b" ++ atEnd

/-- A variable bound to an arrow function with an expression body. -/
def lambdaForm : LineForm :=
  ⟨.lambda, declarationStart ++ "=" ++ blanks ++ maybe ("async" ++ gap) ++
    oneOf ["(" ++ group 2 (many (except ")")) ++ ")", group 3 word] ++ blanks ++ "=>" ++ blanks ++
    group 4 (.char (fun c => !(c = '{' || isBlank c)) ++ little) ++ blanks ++ maybe ";" ++ atEnd⟩

/-- A variable declaration with its name and initializer. -/
def variableForm : LineForm :=
  ⟨.variableLine, declarationStart ++ maybe ("=" ++ blanks ++ group 2 little) ++ blanks ++
    maybe ";" ++ atEnd⟩

/-- A loop over elements or keys, by the words that may stand between variable and collection. -/
def loopOver (words : List String) : Pattern :=
  atStart ++ "for" ++ blanks ++ "(" ++ blanks ++ maybe declarator ++ blanks ++
    group 1 word ++ gap ++ keyword words ++ gap ++ group 2 something ++ blanks ++ ")" ++ headerEnd

/-- A loop over the elements of a collection. -/
def forEachForm : LineForm :=
  ⟨.forEachHeader, loopOver ["of", "in"]⟩

/-- A loop over the keys of an object. -/
def forInForm : LineForm :=
  ⟨.forInHeader, loopOver ["in"]⟩

/-- A line that prints. -/
def printForm : LineForm :=
  ⟨.printLine, atStart ++ "console." ++ keyword ["log", "info", "warn", "error"] ++ blanks ++ "(" ++
    group 1 anything ++ ")" ++ blanks ++ maybe ";" ++ atEnd⟩

/-- A method header with its static mark, name and parameters. -/
def methodForm : LineForm :=
  ⟨.methodHeader, atStart ++ maybe (group 1 ("static" ++ gap)) ++ maybe ("async" ++ gap) ++
    noneOf ["if", "for", "while", "switch", "catch", "function", "return"] ++
    group 2 word ++ blanks ++ "(" ++ group 3 anything ++ ")" ++ headerEnd⟩

/-- The grammar with arrow functions told from functions and lambdas from variables. -/
def withLambdas : List LineForm :=
  [classForm, constructorForm, functionForm, ⟨.arrowFunction, arrowBlock⟩, lambdaForm,
    variableForm] ++
    conditionalForms ++ [forForm, forEachForm, whileForm, printForm] ++ closingForms ++ [methodForm]

/-- The forms with loops over keys. -/
def withKeyLoops : List LineForm :=
  [classForm, constructorForm, functionForm, ⟨.arrowFunction, arrowBlock⟩, lambdaForm,
    variableForm] ++
    conditionalForms ++ [forForm, forInForm, forEachForm, whileForm, printForm] ++ closingForms ++
    [methodForm]

/-- The grammar in which an arrow function is a function. -/
def withoutLambdas : List LineForm :=
  [classForm, constructorForm, functionForm, ⟨.functionHeader, arrowBlock⟩, variableForm] ++
    conditionalForms ++ [forForm, forEachForm, whileForm, printForm] ++ closingForms ++ [methodForm]

end CodeConverter.Grammar.JavaScript

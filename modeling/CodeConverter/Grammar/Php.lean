import CodeConverter.Grammar.CFamily

/-!
# Line forms of PHP

The forms describe lines from which the sigils of variables have been removed.
-/

namespace CodeConverter.Grammar.Php

open Text Pattern

/-- The tag that opens a script. -/
def openTag : Pattern :=
  atStart ++ "<?" ++ maybe "php" ++ blanks

/-- The tag that closes code at the end of a line. -/
def closeTag : Pattern :=
  blanks ++ "?>" ++ atEnd

/-- The modifiers of a declaration. -/
def declarationModifiers : Pattern :=
  group 1 (modifiers ["public", "private", "protected", "static", "final", "abstract"])

/-- A character of a qualified name. -/
def qualified : Char → Bool :=
  wordOr "\\"

/-- A namespace or an import. -/
def namespaceForm : LineForm :=
  ⟨.namespaceLine, atStart ++
    keyword ["namespace", "use", "require", "require_once", "include", "include_once", "declare"] ++
    wordEdge ++ anything ++ ";" ++ atEnd⟩

/-- The header of a class. -/
def classForm : LineForm :=
  ⟨.classHeader, atStart ++ maybe (keyword ["abstract", "final"] ++ gap) ++
    keyword ["class", "interface", "trait"] ++
    gap ++ group 1 word ++ maybe (gap ++ "extends" ++ gap ++ group 2 (many1 qualified)) ++
    maybe (gap ++ "implements" ++ gap ++ few1 (wordBlankOr "\\,")) ++ headerEnd⟩

/-- The header of a constructor. -/
def constructorForm : LineForm :=
  ⟨.constructorHeader, atStart ++ declarationModifiers ++ "function" ++ gap ++ "__construct" ++
    blanks ++ "(" ++ group 2 anything ++ ")" ++ headerEnd⟩

/-- A function header with its modifiers, name and parameters. -/
def functionForm : LineForm :=
  ⟨.functionHeader, atStart ++ declarationModifiers ++ "function" ++ gap ++ maybe "&" ++
    group 2 word ++ blanks ++ "(" ++ group 3 anything ++ ")" ++ blanks ++
    maybe (":" ++ blanks ++ maybe "?" ++ many1 qualified ++ blanks) ++ maybe "\x7b" ++ atEnd⟩

/-- A property of a class. -/
def propertyForm : LineForm :=
  let mark := keyword ["public", "private", "protected", "var", "static", "readonly"] ++ gap
  ⟨.propertyLine, atStart ++ mark ++ .star mark ++ maybe (maybe "?" ++ many1 qualified ++ gap) ++
    group 1 word ++ blanks ++ maybe ("=" ++ blanks ++ group 2 little) ++ blanks ++ ";" ++ atEnd⟩

/-- A class constant with its name and value. -/
def constantForm : LineForm :=
  ⟨.constantLine, atStart ++ maybe (keyword ["public", "private", "protected"] ++ gap) ++
    "const" ++ gap ++
    group 1 word ++ blanks ++ "=" ++ blanks ++ group 2 little ++ blanks ++ ";" ++ atEnd⟩

/-- An `else if` header written as one word. -/
def elseIfWordForm : LineForm :=
  ⟨.elseIfHeader, conditionHeader "elseif"⟩

/-- A loop over the values, or the keys and values, of an array. -/
def foreachForm : LineForm :=
  ⟨.foreachHeader, atStart ++ "foreach" ++ blanks ++ "(" ++ blanks ++ group 1 something ++ gap ++
    "as" ++ gap ++
    maybe (maybe "&" ++ group 2 word ++ blanks ++ "=>" ++ blanks) ++ maybe "&" ++ group 3 word ++
    blanks ++ ")" ++ headerEnd⟩

/-- A print statement with its value. -/
def echoForm : LineForm :=
  ⟨.echoLine, atStart ++ keyword ["echo", "print"] ++ wordEdge ++ blanks ++ group 1 little ++
    blanks ++ maybe ";" ++ atEnd⟩

/-- The grammar. -/
def all : List LineForm :=
  [namespaceForm, classForm, constructorForm, functionForm, constantForm, propertyForm, ifForm,
    elseIfForm,
    elseIfWordForm, elseForm, forForm, foreachForm, whileForm, echoForm] ++ closingForms

end CodeConverter.Grammar.Php

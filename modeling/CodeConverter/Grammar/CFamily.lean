import CodeConverter.Line.Form
import CodeConverter.Loop

/-!
# Line forms shared by brace languages

Headers of control structures may have their opening brace on the line or leave it for the next
one.
-/

namespace CodeConverter.Grammar

open Text Pattern

/-- The end of a header, with its brace or without. -/
def headerEnd : Pattern :=
  blanks ++ maybe "\x7b" ++ atEnd

/-- A keyword with a parenthesised condition and an optional opening brace. -/
def conditionHeader (start : Pattern) : Pattern :=
  atStart ++ start ++ blanks ++ "(" ++ group 1 anything ++ ")" ++ headerEnd

/-- A keyword with an optional opening brace. -/
def bareHeader (start : Pattern) : Pattern :=
  atStart ++ start ++ headerEnd

/-- An `if` header. -/
def ifForm : LineForm := ⟨.ifHeader, conditionHeader "if"⟩

/-- An `else if` header. -/
def elseIfForm : LineForm := ⟨.elseIfHeader, conditionHeader ("else" ++ gap ++ "if")⟩

/-- An `else` header. -/
def elseForm : LineForm := ⟨.elseHeader, bareHeader "else"⟩

/-- The header of a counting loop. -/
def forForm : LineForm := ⟨.forHeader, Loop.countingFor⟩

/-- A `while` header. -/
def whileForm : LineForm := ⟨.whileHeader, conditionHeader "while"⟩

/-- A `return` statement with an optional value. -/
def returnForm : LineForm :=
  ⟨.returnLine, atStart ++ "return" ++ wordEdge ++ blanks ++ group 1 little ++ blanks ++
    maybe ";" ++ atEnd⟩

/-- A `try` header. -/
def tryForm : LineForm := ⟨.tryHeader, bareHeader "try"⟩

/-- A `catch` header with an optional parameter and type. -/
def catchForm : LineForm :=
  ⟨.catchHeader, atStart ++ "catch" ++ blanks ++
    maybe ("(" ++ blanks ++ maybe (group 1 (few1 (wordBlankOr ".|")) ++ gap) ++ group 2 word ++
    blanks ++ ")") ++ headerEnd⟩

/-- A `finally` header. -/
def finallyForm : LineForm := ⟨.finallyHeader, bareHeader "finally"⟩

/-- An opening brace alone. -/
def openBraceForm : LineForm := ⟨.openBrace, atStart ++ "\x7b" ++ atEnd⟩

/-- A closing brace with what follows it. -/
def closeBraceForm : LineForm :=
  ⟨.closeBrace, atStart ++ "\x7d" ++ many (fun c => isBlank c || among ");," c) ++ atEnd⟩

/-- The forms from `return` to the closing brace, which follow one another in every grammar. -/
def closingForms : List LineForm :=
  [returnForm, tryForm, catchForm, finallyForm, openBraceForm, closeBraceForm]

/-- The headers of conditionals. -/
def conditionalForms : List LineForm :=
  [ifForm, elseIfForm, elseForm]

/-- The forms that all languages with braces share. -/
def cFamily : List LineForm :=
  conditionalForms ++ [forForm, whileForm] ++ closingForms

/-- A line of closing brackets that ends a literal over several lines. -/
def literalClose : Pattern :=
  atStart ++ .char (among "\x7d])") ++ many (among ")];,") ++ atEnd

/-- A statement that counts a variable up or down. -/
def increment : Pattern :=
  atStart ++
    oneOf [
      group 1 (many1 (wordOr ".[]")) ++ blanks ++ group 2 (keyword ["++", "--"]),
      group 3 (keyword ["++", "--"]) ++ blanks ++ group 4 (many1 (wordOr ".[]"))] ++
    maybe ";" ++ atEnd

end CodeConverter.Grammar

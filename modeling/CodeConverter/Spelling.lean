import CodeConverter.Literal.Mask

/-!
# Operators as words and as symbols

Logical operators, constants and the receiver are spelled as words in some languages (`and`,
`not`, `None`, `self.`) and with symbols or other words in the C family (`&&`, `!`, `null`,
`this.`). Both respellings leave string literals alone.
-/

namespace CodeConverter.Spelling

open Pattern

/-- A whole word, replaced by another. -/
def respellWord (old : List String) (new : Text) (t : Text) : Text :=
  (wordEdge ++ keyword old ++ wordEdge).replaceWith new t

/-- Operators, constants and the receiver spelled as words, literals not looked for. -/
def toWords (t : Text) : Text :=
  let t := Text.replace "!==" "!=" (Text.replace "===" "==" t)
  let t := (blanks ++ "&&" ++ blanks).replaceWith " and " t
  let t := (blanks ++ "||" ++ blanks).replaceWith " or " t
  let t := ("!" ++ notAhead "=" ++ blanks).replaceWith "not " t
  let t := respellWord ["null", "undefined"] "None" t
  let t := respellWord ["true"] "True" t
  let t := respellWord ["false"] "False" t
  (wordEdge ++ "this.").replaceWith "self." t

/-- Equality written with one more sign, so that it does not convert its operands. -/
def strictEquality (t : Text) : Text :=
  let t := (notBehind (among "=!<>") ++ "==" ++ notAhead "=").replaceWith "===" t
  ("!=" ++ notAhead "=").replaceWith "!==" t

/-- Operators, constants and the receiver spelled as in the C family, literals not looked for. -/
def toSymbols (strict : Bool) (receiver : Text) (t : Text) : Text :=
  let t := (wordEdge ++ "is" ++ gap ++ "not" ++ gap ++ "None" ++ wordEdge).replaceWith "!= None" t
  let t := (wordEdge ++ "is" ++ gap ++ "None" ++ wordEdge).replaceWith "== None" t
  let t := if strict then strictEquality t else t
  let t := (wordEdge ++ "not" ++ gap).replaceWith "!" t
  let t := respellWord ["and"] "&&" t
  let t := respellWord ["or"] "||" t
  let t := respellWord ["None"] "null" t
  let t := respellWord ["True"] "true" t
  let t := respellWord ["False"] "false" t
  (wordEdge ++ "self.").replaceWith receiver t

/-- An expression spelt with words. -/
def wordExpression (t : Text) : Except Fault Text :=
  Literal.respellOutside toWords t

/-- An expression spelled with words turned to the C family outside its literals. -/
def symbolExpression (strict : Bool) (receiver : Text) (t : Text) : Except Fault Text :=
  Literal.respellOutside (toSymbols strict receiver) t

end CodeConverter.Spelling

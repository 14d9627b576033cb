import CodeConverter.Argument

/-!
# Type annotations

Where an annotation ends, and parameter lists without their annotations. Angle brackets count as
brackets here, and an arrow counts as no bracket at all.
-/

namespace CodeConverter.Erasure

open Text Literal Pattern

/-- An opening bracket, angle brackets included. -/
def isTypeOpening (c : Char) : Bool :=
  isOpening c || c = '<'

/-- A closing bracket, angle brackets included. -/
def isTypeClosing (c : Char) : Bool :=
  isClosing c || c = '>'

/-- The length of the type at the start of a text, given the bracket depth there. A type ends at a
bracket it did not open and at a top level comma, semicolon or equals sign. A result type also ends
where the body of the function starts. -/
def typeLength (isResult : Bool) : Nat → Text → Nat
  | _, [] => 0
  | depth, '=' :: '>' :: t => if isResult && depth = 0 then 0 else 2 + typeLength isResult depth t
  | depth, c :: t =>
    if c = '{' && depth = 0 && isResult then 0
    else if isTypeOpening c then 1 + typeLength isResult (depth + 1) t
    else if isTypeClosing c then if depth = 0 then 0 else 1 + typeLength isResult (depth - 1) t
    else if depth = 0 && among "=,;" c then 0
    else 1 + typeLength isResult depth t

/-- The place where the type from a place on ends. -/
def typeEnd (t : Text) (start : Nat) (isResult : Bool) : Nat :=
  start + typeLength isResult 0 (t.drop start)

/-- The text after the type at its start. -/
def afterType (t : Text) : Text :=
  t.drop (typeLength false 0 t)

/-- The parts of a list from a place on, given the bracket depth, the open quote and the characters
of the part at hand, the latest first. -/
def splitTopLevelFrom : Int → Option Char → Text → Text → List Text
  | _, _, current, [] => if (strip current).isEmpty then [] else [current.reverse]
  | depth, some q, current, c :: t =>
    splitTopLevelFrom depth (quoteAfter isQuote (some q) c) (c :: current) t
  | depth, none, current, '=' :: '>' :: t => splitTopLevelFrom depth none ('>' :: '=' :: current) t
  | depth, none, current, c :: t =>
    if c = ',' && depth = 0 then current.reverse :: splitTopLevelFrom 0 none [] t
    else
      let change : Int := if isTypeOpening c then 1 else if isTypeClosing c then -1 else 0
      splitTopLevelFrom (depth + change) (quoteAfter isQuote none c) (c :: current) t

/-- The parts of a list between the commas outside brackets, type arguments and quotes. A blank
last part is dropped. -/
def splitTopLevel (t : Text) : List Text :=
  splitTopLevelFrom 0 none [] t

/-- Question marks removed from the end. -/
def withoutMarks (t : Text) : Text :=
  dropEndWhile (· = '?') t

/-- A parameter without its annotation, given the whole parameter, the bracket depth and the
characters already seen, the latest first. -/
def stripParameterFrom (whole : Text) : Int → Text → Text → Text
  | _, _, [] => withoutMarks whole
  | depth, seen, c :: t =>
    if isTypeOpening c then stripParameterFrom whole (depth + 1) (c :: seen) t
    else if isTypeClosing c then stripParameterFrom whole (depth - 1) (c :: seen) t
    else if c = '=' && depth = 0 then whole
    else if c = ':' && depth = 0 then
      let name := withoutMarks (stripEnd seen.reverse)
      let default := strip (afterType t)
      if default.isEmpty then name else name ++ " " ++ default
    else stripParameterFrom whole depth (c :: seen) t

/-- A parameter without its annotation. -/
def stripParameter (t : Text) : Text :=
  stripParameterFrom (strip t) 0 [] (strip t)

/-- Parameters without their annotations. -/
def stripParameters (t : Text) : Text :=
  join ", " ((splitTopLevel t).map stripParameter)

end CodeConverter.Erasure

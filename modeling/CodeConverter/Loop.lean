import CodeConverter.Pattern.Vocabulary

/-!
# Counting loops

A counting loop runs a variable from a start to a bound in equal steps. One family of languages
writes it as a header with three parts, the other as a range of values. `rangeArguments` and
`countingLoop` go between the two forms.
-/

namespace CodeConverter.Loop

open Text Pattern

/-- An integer. -/
def integerLiteral : Pattern :=
  atStart ++ maybe "-" ++ many1 isDigit ++ atEnd

/-- An operand that needs no parentheses behind a minus sign. -/
def simpleOperand : Pattern :=
  atStart ++ many1 (wordOr ".") ++ atEnd

/-- The header of a counting loop: variable, start, comparison, bound and step. -/
def countingFor : Pattern :=
  atStart ++ "for" ++ blanks ++ "(" ++ blanks ++ maybe (many1 (wordOr "<>[]") ++ gap) ++
    group 1 word ++ blanks ++ "=" ++ blanks ++ group 2 (few1 (except ";")) ++ blanks ++ ";" ++
    blanks ++ again 1 ++ blanks ++ group 3 (keyword ["<=", "<", ">=", ">"]) ++ blanks ++
    group 4 (few1 (except ";")) ++ blanks ++ ";" ++ blanks ++
    oneOf [
      again 1 ++ blanks ++ group 5 (oneOf [
        "++", "--", "+=" ++ blanks ++ few1 (except ")"), "-=" ++ blanks ++ few1 (except ")")]),
      group 6 (keyword ["++", "--"]) ++ blanks ++ again 1] ++
    blanks ++ ")" ++ blanks ++ maybe "\x7b" ++ atEnd

/-- How the variable changes after each round. -/
structure Step where
  up : Bool
  amount : Text
  deriving DecidableEq

/-- The comparison of the variable with the bound that keeps the loop running. -/
inductive Comparison where
  | less
  | atMost
  | greater
  | atLeast
  deriving DecidableEq

/-- A counting loop: the variable runs from `start` while it compares with `bound`. -/
structure Header where
  name : Text
  start : Text
  comparison : Comparison
  bound : Text
  step : Step
  deriving DecidableEq

/-- The step written by the third part of a header. -/
def Step.ofText (t : Text) : Step :=
  match t.filter (· ≠ ' ') with
  | ['+', '+'] => ⟨true, "1"⟩
  | ['-', '-'] => ⟨false, "1"⟩
  | sign :: amount => ⟨sign = '+', amount.drop 1⟩
  | [] => ⟨false, []⟩

/-- The comparison with a sign. -/
def Comparison.ofText (t : Text) : Comparison :=
  match t with
  | ['<'] => .less
  | ['<', '='] => .atMost
  | ['>'] => .greater
  | _ => .atLeast

/-- The loop described by a match of `countingFor`. -/
def Header.ofMatch (m : Match) : Header where
  name := m.group 1
  start := m.group 2
  comparison := .ofText (m.group 3)
  bound := m.group 4
  step := .ofText ((m.group? 5).getD (m.group 6))

/-- The parts of a counting header. -/
def Header.parse? (t : Text) : Option Header :=
  (countingFor.matchStart t).map .ofMatch

/-- A bound shifted by `delta`. Integer literals are computed. -/
def offsetBound (bound : Text) (delta : Int) : Except Fault Text :=
  let bound := strip bound
  if integerLiteral.matchesStart bound then do
    writeInt ((← readInt bound) + delta)
  else if delta > 0 then .ok (bound ++ " + " ++ decimal delta.natAbs)
  else .ok (bound ++ " - " ++ signedDecimal (-delta))

/-- An amount with the other sign. -/
def negate (t : Text) : Text :=
  let t := strip t
  match t with
  | '-' :: rest => strip rest
  | _ => if simpleOperand.matchesStart t then "-" ++ t else "-(" ++ t ++ ")"

/-- The arguments of the range that gives the values of the loop. A loop whose comparison points
against its step has no such range. -/
def rangeArguments (h : Header) : Except Fault (Option Text) := do
  if h.step.up then
    let stop ← match h.comparison with
      | .less => pure (some h.bound)
      | .atMost => some <$> offsetBound h.bound 1
      | _ => pure none
    pure (stop.map fun stop =>
      if h.step.amount = ['1'] then h.start ++ ", " ++ stop
      else h.start ++ ", " ++ stop ++ ", " ++ h.step.amount)
  else
    let stop ← match h.comparison with
      | .greater => pure (some h.bound)
      | .atLeast => some <$> offsetBound h.bound (-1)
      | _ => pure none
    pure (stop.map fun stop => h.start ++ ", " ++ stop ++ ", " ++ negate h.step.amount)

/-- A step without the blanks inside an integer literal. -/
def tightStep (step : Text) : Text :=
  let tight := step.filter (· ≠ ' ')
  if integerLiteral.matchesStart tight then tight else step

/-- The loop from `start` to `stop` in parentheses; `declaration` stands before the first mention
of the variable. -/
def loopHeader (name start stop step declaration : Text) : Text :=
  match tightStep step with
  | '-' :: amount =>
    let amount := strip amount
    let update := if amount = ['1'] then name ++ "--" else name ++ " -= " ++ amount
    "(" ++ declaration ++ name ++ " = " ++ start ++ "; " ++ name ++ " > " ++ stop ++ "; " ++
      update ++ ")"
  | step =>
    let update := if step = ['1'] then name ++ "++" else name ++ " += " ++ step
    "(" ++ declaration ++ name ++ " = " ++ start ++ "; " ++ name ++ " < " ++ stop ++ "; " ++
      update ++ ")"

/-- The header of a loop over a range. -/
def countingLoop (name : Text) (arguments : List Text) (declaration : Text) : Option Text :=
  match arguments with
  | [stop] => some (loopHeader name "0" stop "1" declaration)
  | [start, stop] => some (loopHeader name start stop "1" declaration)
  | [start, stop, step] => some (loopHeader name start stop step declaration)
  | _ => none

end CodeConverter.Loop

import CodeConverter.Literal.Token
import CodeConverter.Pattern.Vocabulary

/-!
# Interpolated literals

Three ways to write a text with values in it: a backtick literal with `$` holes, a marked literal
with brace holes, and a concatenation of literals and values.
-/

namespace CodeConverter.Literal

open Pattern

/-- A literal in backticks. -/
def backtickLiteral : Pattern :=
  "`" ++ group 1 (many (except "`")) ++ "`"

/-- A hole of a backtick literal, up to the first closing brace. -/
def dollarField : Pattern :=
  "$\x7b" ++ group 1 little ++ "\x7d"

/-- A hole of a marked literal, up to the first closing brace. -/
def braceField : Pattern :=
  "\x7b" ++ group 1 little ++ "\x7d"

/-- A literal marked by an `f`. -/
def markedLiteral : Pattern :=
  wordEdge ++ "f" ++ group 1 (.char isPlainQuote) ++ group 2 little ++ .again 1

/-- The holes of a backtick literal's contents written with plain braces. -/
def dollarToBrace (t : Text) : Text :=
  dollarField.replaceBy (fun m => "\x7b" ++ m.group 1 ++ "\x7d") t

/-- Literals in backticks as marked ones. -/
def backtickToMarked (t : Text) : Text :=
  backtickLiteral.replaceBy (fun m => "f\"" ++ dollarToBrace (m.group 1) ++ "\"") t

/-- Marked literals in backticks. -/
def markedToBacktick (t : Text) : Text :=
  markedLiteral.replaceBy
    (fun m =>
    "`" ++ braceField.replaceBy (fun h => "$\x7b" ++ h.group 1 ++ "\x7d") (m.group 2) ++ "`") t

/-- The operands of a concatenation, given the characters seen since the last hole, the latest
first: a quoted literal for every nonempty run of characters, and the code of every hole. -/
def operandsFrom : Text → List Segment → List Text
  | [], [] => []
  | run, [] => ["\"" ++ run.reverse ++ "\""]
  | run, .plain c :: rest => operandsFrom (c :: run) rest
  | [], .found m :: rest => m.group 1 :: operandsFrom [] rest
  | run, .found m :: rest => ("\"" ++ run.reverse ++ "\"") :: m.group 1 :: operandsFrom [] rest

/-- The contents of a marked literal as a concatenation; the empty contents give an empty
literal. -/
def concatenation (joiner : Text) (contents : Text) : Text :=
  match Text.join joiner (operandsFrom [] (braceField.segments contents)) with
  | [] => "\"\""
  | t => t

/-- Marked literals as concatenations. -/
def markedToConcatenation (joiner : Text) (t : Text) : Text :=
  markedLiteral.replaceBy (fun m => concatenation joiner (m.group 2)) t

end CodeConverter.Literal

import CodeConverter.Brace.ToBrace

/-!
# The scan of brace sources

A line is blank, a comment, or split into pieces that are visited one after another. The code of a
piece is written at the smaller of the depths before and after it.
-/

namespace CodeConverter.Brace

open Text Pattern

/-- A line that no form describes, kept as it is. -/
def keepLine (s : State) (line : Text) : State × Code :=
  (if endsIn (· = '{') line then s.openBlock line .block else s, .line line)

/-- Visits a classified piece. -/
def visit (c : Conversion) (s : State) (l : Classified) : Visit :=
  match c with
  | .plain => pure (keepLine s l.line)
  | .toIndentation => ToIndent.visit c s l
  | .javaToPython => ToIndent.visit c s l
  | .javascriptToPython => ToIndent.visit c s l
  | .phpToPython => ToIndent.visit c s l
  | _ => ToBrace.visit c s l

/-- Passes over a piece inside a skipped scope. -/
def skipPiece (s : State) (piece : Text) : Except Fault State :=
  if piece = ['{'] && s.awaitingBrace then pure { s with awaitingBrace := false }
  else if endsIn (· = '{') piece then pure (s.push .skipped)
  else if Grammar.closeBraceForm.pattern.matchesStart piece then do
    return { s with scopes := ← popped s.scopes }
  else pure s

/-- Visits a piece of a line. -/
def visitPiece (c : Conversion) (s : State) (piece : Text) : Except Fault State := do
  if s.scopes.contains .skipped then skipPiece s piece
  else
    let l := classify c.grammar piece
    let before := if l.kind = .openBrace then s else { s with awaitingBrace := false }
    let (after, code) ← visit c before l
    return after.emit c (min (before.depth c) (after.depth c)) code

/-- The piece as it is classified. PHP pieces lose their sigils. -/
def prepare (c : Conversion) (piece : Text) : Text :=
  if c = .phpToPython then Expression.ToPython.withoutSigils piece else piece

/-- Handles the pieces of a line from left to right. -/
def visitPieces (c : Conversion) : State → List Text → Except Fault State
  | s, [] => pure s
  | s, piece :: rest => do
    let piece := prepare c piece
    let s ← if piece.isEmpty then pure s else visitPiece c s piece
    visitPieces c s rest

/-- The start of a block comment. -/
def commentOpening : Pattern :=
  "/*" ++ many (· = '*')

/-- The end of a block comment. -/
def commentClosing : Pattern :=
  many1 (· = '*') ++ "/"

/-- Whether a block comment is open after a line: the last delimiter of the line decides. -/
def commentAfter (inComment : Bool) (line : Text) : Bool :=
  match lastIndex? "/*" line, lastIndex? "*/" line with
  | none, none => inComment
  | some _, none => true
  | none, some _ => false
  | some opening, some closing => closing < opening

/-- A line of a block comment in the target. -/
def commentLine (c : Conversion) (line : Text) : Text :=
  match c.style.blockComment with
  | none => line
  | some (opening, closing) =>
    commentClosing.replaceWith closing (commentOpening.replaceWith opening line)

/-- A line that is a comment, in the target. -/
def lineComment? (c : Conversion) (line : Text) : Option Text :=
  c.style.sourceComments.findSome? fun mark =>
    (dropPrefix? mark line).map fun text => stripEnd (c.style.lineComment ++ " " ++ strip text)

/-- Visits a line without blanks around it. -/
def visitStripped (c : Conversion) (s : State) (line : Text) : Except Fault State :=
  if line.isEmpty then pure { s with output := s.output.push [] }
  else
    let s := { s with hasContent := true }
    if s.inComment || includes line "/*" then
      let s := { s with inComment := commentAfter s.inComment line }
      pure (s.emit c (s.depth c) (.line (commentLine c line)))
    else match lineComment? c line with
      | some comment => pure (s.emit c (s.depth c) (.line comment))
      | none => visitPieces c s (Block.split line)

/-- A line of PHP without its tags. -/
def withoutTags (line : Text) : Text :=
  Grammar.Php.closeTag.replaceWith [] (Grammar.Php.openTag.replaceWith [] (strip line))

/-- Visits a line. A PHP line that holds nothing but a tag is dropped. -/
def visitLine (c : Conversion) (s : State) (line : Text) : Except Fault State :=
  if c = .phpToPython then
    let code := withoutTags line
    if !(strip line).isEmpty && code.isEmpty then pure s else visitStripped c s (strip code)
  else visitStripped c s (strip line)

/-- The entry point added to a Java class without one. -/
def mainStub : Code :=
  .lines [
    "",
    "public static void main(String[] args) \x7b",
    "    // Add your main method implementation here",
    "\x7d"]

/-- The end of the source. For Java the output becomes the body of a class. -/
def finish (c : Conversion) (s : State) : State :=
  if c = .javascriptToJava && s.hasContent then
    let s := if s.hasMain then s else s.emit c c.style.baseDepth mainStub
    { s with output := #["public class Main \x7b".toList] ++ s.output ++ #["\x7d".toList] }
  else s

/-- The conversion as a machine that reads lines. -/
def machine (c : Conversion) : LineMachine State where
  initial := State.initial
  visit := visitLine c
  finish := fun s => pure (finish c s)
  output := State.output

end CodeConverter.Brace

import CodeConverter.Literal.Token
import CodeConverter.Pattern.Vocabulary

/-!
# Blocks within a line

A line such as `if (a) { b; } else {` holds several pieces. Splitting breaks it after every brace
that opens a block and around every brace that closes one. Braces of object literals stay where
they are, and so does everything in string literals and behind a comment mark.
-/

namespace CodeConverter.Block

open Text Literal Pattern

/-- Text after which a brace opens a block: a closed parameter list, a keyword with a body, or the
header of a type or namespace. -/
def header : Pattern :=
  oneOf [
    oneOf [
      ")" ++ blanks ++ maybe ("throws" ++ gap ++ many1 (wordOr ".") ++
        .star (blanks ++ "," ++ blanks ++ many1 (wordOr "."))),
      wordEdge ++ "else", wordEdge ++ "try", wordEdge ++ "finally", wordEdge ++ "do"] ++
      blanks ++ atEnd,
    atStart ++ maybe ("export" ++ gap) ++
      modifiers ["public", "private", "protected", "internal", "abstract", "final", "static",
        "sealed", "partial"] ++
      keyword ["class", "interface", "enum", "namespace", "struct"] ++ wordEdge]

/-- Whether a brace after the text opens a block. -/
def isHeader (t : Text) : Bool :=
  header.occursIn t

/-- What an open brace of the line belongs to. -/
inductive Brace where
  | block
  | object
  deriving DecidableEq

/-- A line split up to some place: the finished pieces and the characters of the current piece,
both the latest first, the open braces, the open quote, and whether the next character is escaped.
While `glued`, closing punctuation still belongs to the finished piece with the closing brace. -/
structure Progress where
  pieces : List Text
  current : Text
  braces : List Brace
  quote : Option Char
  escaped : Bool
  glued : Bool

/-- Punctuation that stays with the closing brace before it. -/
def isGlue (c : Char) : Bool :=
  c = ')' || c = ';' || c = ','

/-- The current piece without blanks around it. -/
def Progress.piece (p : Progress) : Text :=
  strip p.current.reverse

/-- Finishes the current piece unless it is blank. -/
def Progress.finish (p : Progress) : List Text :=
  if p.piece.isEmpty then p.pieces else p.piece :: p.pieces

/-- Adds a character to the current piece. -/
def Progress.push (p : Progress) (c : Char) : Progress :=
  { p with current := c :: p.current, glued := false }

/-- Reads an opening brace. -/
def Progress.openBrace (p : Progress) : Progress :=
  if isHeader p.piece then
    { p with
      pieces := (p.piece ++ " \x7b") :: p.pieces
      current := []
      braces := .block :: p.braces
      glued := false }
  else { p.push '{' with braces := .object :: p.braces }

/-- Passes over a closing brace. -/
def Progress.closeBrace (p : Progress) : Progress :=
  match p.braces with
  | .object :: rest => { p.push '}' with braces := rest }
  | braces =>
    { p with
      pieces := "\x7d" :: p.finish
      current := []
      braces := braces.drop 1
      glued := true }

/-- Adds punctuation to the piece with the closing brace just finished. -/
def Progress.glue (p : Progress) (c : Char) : Progress :=
  match p.pieces with
  | [] => p
  | piece :: rest => { p with pieces := (piece ++ [c]) :: rest }

/-- Passes over a character inside quotes. -/
def Progress.quoted (p : Progress) (quote c : Char) : Progress :=
  if p.escaped then { p.push c with escaped := false }
  else if c = '\\' then { p.push c with escaped := true }
  else if c = quote then { p.push c with quote := none }
  else p.push c

/-- Passes over a character of code. -/
def Progress.code (p : Progress) (c : Char) : Progress :=
  if p.glued && isGlue c then p.glue c
  else if isQuote c then { p.push c with quote := some c }
  else if c = '{' then p.openBrace
  else if c = '}' then p.closeBrace
  else p.push c

/-- The pieces of the text ahead. -/
def splitFrom : Progress → Text → List Text
  | p, [] => p.finish.reverse
  | p, c :: t =>
    match p.quote with
    | some q => splitFrom (p.quoted q c) t
    | none =>
      if c = '/' && t.head? = some '/' then
        Progress.finish { p with current := t.reverse ++ c :: p.current } |>.reverse
      else splitFrom (p.code c) t

/-- The pieces of a line, one block boundary in each. -/
def split (t : Text) : List Text :=
  splitFrom ⟨[], [], [], none, false, false⟩ t

end CodeConverter.Block

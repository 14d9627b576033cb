import CodeConverter.Proofs.Program.Name
import CodeConverter.Proofs.Program.Tree

/-!
# Programs laid out with braces

A program tree is cut into pieces: its calls, the headers of its blocks and their braces. The brace
of a block stands on the line of its header or alone on the next one. A line may go on after a brace
that stands with its header and on both sides of a closing brace, and blanks may stand around every
piece.
-/

namespace CodeConverter.Program

open Text

/-- A part of a program that no line break cuts. -/
inductive Piece where
  | statement (text : Text)
  /-- A header whose brace stands on the next line. -/
  | header (text : Text)
  /-- A header with its brace. -/
  | opened (text : Text)
  | opening
  | closing

/-- The text of a piece, with one blank before the brace of a header. -/
def Piece.text : Piece → Text
  | .statement t => t
  | .header t => t
  | .opened t => t ++ " \x7b"
  | .opening => "\x7b"
  | .closing => "\x7d"

/-- Blank characters. -/
def Blank (gap : Text) : Prop :=
  ∀ c ∈ gap, isBlank c = true

/-- The ways to write a piece. -/
inductive Piece.Written : Piece → Text → Prop where
  | statement (text : Text) : Written (.statement text) text
  | header (text : Text) : Written (.header text) text
  | opened (text : Text) {gap : Text} : Blank gap → Written (.opened text) (text ++ (gap ++ "\x7b"))
  | opening : Written .opening "\x7b"
  | closing : Written .closing "\x7d"

/-- Whether the line may go on from a piece to the next one. -/
def Piece.joins : Piece → Piece → Bool
  | .opened _, _ => true
  | .closing, _ => true
  | .statement _, .closing => true
  | _, _ => false

/-- The pieces of one line. -/
inductive OnLine : List Piece → Text → Prop where
  | last {piece : Piece} {gap text trail : Text} : Blank gap → Blank trail → piece.Written text →
      OnLine [piece] (gap ++ (text ++ trail))
  | next {piece after : Piece} {pieces : List Piece} {gap text line : Text} :
      Blank gap → piece.Written text → piece.joins after = true → OnLine (after :: pieces) line →
      OnLine (piece :: after :: pieces) (gap ++ (text ++ line))

/-- The pieces of some lines. -/
inductive OnLines : List Piece → List Text → Prop where
  | nil : OnLines [] []
  | cons {pieces more : List Piece} {line : Text} {ls : List Text} : OnLine pieces line →
      OnLines more ls → OnLines (pieces ++ more) (line :: ls)

/-- A header and the brace of its block. -/
inductive Opens (header : Text) : List Piece → Prop where
  | sameLine : Opens header [.opened header]
  | nextLine : Opens header [.header header, .opening]

/-- A keyword with a condition in parentheses. -/
def conditionText (start : String) (condition : Text) : Text :=
  start.toList ++ (' ' :: '(' :: (condition ++ ")"))

variable {H : Type}

mutual

/-- The pieces of a tree. -/
inductive TreePieces (header : H → Text) : Tree H → List Piece → Prop where
  | call (name arguments : Text) :
      TreePieces header (.call name arguments) [.statement (callText name arguments ++ ";")]
  | block {opening : H} {body : Forest H} {front pieces : List Piece} :
      Opens (header opening) front →
      ForestPieces header body pieces →
      TreePieces header (.block opening body) (front ++ (pieces ++ [.closing]))
  | branch {condition : Text} {body : Forest H} {rest : Branches H}
      {front pieces more : List Piece} :
      Opens (conditionText "if" condition) front → ForestPieces header body pieces →
      BranchesPieces header rest more →
      TreePieces header (.branch condition body rest) (front ++ (pieces ++ .closing :: more))

/-- The pieces of statements. -/
inductive ForestPieces (header : H → Text) : Forest H → List Piece → Prop where
  | nil : ForestPieces header .nil []
  | cons {first : Tree H} {rest : Forest H} {pieces more : List Piece} :
      TreePieces header first pieces →
      ForestPieces header rest more → ForestPieces header (.cons first rest) (pieces ++ more)

/-- The pieces of the other blocks of a conditional chain. -/
inductive BranchesPieces (header : H → Text) : Branches H → List Piece → Prop where
  | done : BranchesPieces header .done []
  | elseIf {condition : Text} {body : Forest H} {rest : Branches H}
      {front pieces more : List Piece} :
      Opens (conditionText "else if" condition) front → ForestPieces header body pieces →
      BranchesPieces header rest more →
      BranchesPieces header (.elseIf condition body rest) (front ++ (pieces ++ .closing :: more))
  | otherwise {body : Forest H} {front pieces : List Piece} : Opens "else" front →
      ForestPieces header body pieces →
      BranchesPieces header (.otherwise body) (front ++ (pieces ++ [.closing]))

end

/-- The lines are a layout of the program. -/
def LaidOut (header : H → Text) (program : Forest H) (ls : List Text) : Prop :=
  ∃ pieces, ForestPieces header program pieces ∧ OnLines pieces ls

end CodeConverter.Program

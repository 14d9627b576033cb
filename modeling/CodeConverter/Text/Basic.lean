/-!
# Texts as lists of characters

A text is a list of Unicode characters. This module holds the operations on texts that know
nothing about characters beyond equality: splitting at a separator, replacing and counting the
occurrences of a piece, and finding the last occurrence of a piece. Occurrences are always taken
from left to right and do not overlap.
-/

namespace CodeConverter

/-- A text. -/
abbrev Text := List Char

/-- A string stands for the list of its characters wherever a text is expected. -/
instance : Coe String Text := ⟨String.toList⟩

namespace Text

/-- What holds of all characters of a text is decided by going through the text. -/
instance decidableForallMem {p : Char → Prop} [DecidablePred p] (t : Text) :
    Decidable (∀ c ∈ t, p c) :=
  List.decidableBAll p t

/-- What holds of a character, if there is one, is decided by looking at it. -/
instance decidableForallMemOption {p : Char → Prop} [DecidablePred p] (c : Option Char) :
    Decidable (∀ d ∈ c, p d) :=
  Option.decidableForallMem c

/-- The text with the longest run of characters satisfying `drop` removed from its end. -/
def dropEndWhile (drop : Char → Bool) (t : Text) : Text :=
  (t.reverse.dropWhile drop).reverse

/-- The pieces between the occurrences of the character `sep`; there is one more piece than there
are occurrences. -/
def splitOn (sep : Char) : Text → List Text
  | [] => [[]]
  | c :: t =>
    if c = sep then [] :: splitOn sep t
    else match splitOn sep t with
      | [] => [[c]]
      | piece :: pieces => (c :: piece) :: pieces

/-- The lines of a text. -/
def lines (t : Text) : List Text :=
  splitOn '\n' t

/-- The pieces joined with `sep` between neighbours. -/
def join (sep : Text) (pieces : List Text) : Text :=
  sep.intercalate pieces

/-- Lines joined by line feeds. -/
def unlines (pieces : List Text) : Text :=
  join ['\n'] pieces

/-- The text before the first occurrence of `sep` and the text after it. Without an occurrence the
second part is empty. -/
def cut (sep : Char) (t : Text) : Text × Text :=
  (t.takeWhile (· ≠ sep), (t.dropWhile (· ≠ sep)).drop 1)

/-- The rest of the text after the piece it starts with, if it starts with it. -/
def dropPrefix? : Text → Text → Option Text
  | [], t => some t
  | _ :: _, [] => none
  | c :: piece, d :: t => if c = d then dropPrefix? piece t else none

/-- Whether a text starts with a piece. -/
def startsWith (t piece : Text) : Bool :=
  piece.isPrefixOf t

/-- Whether a text ends with a piece. -/
def endsWith (t piece : Text) : Bool :=
  piece.isSuffixOf t

/-- Whether the last character of the text satisfies `test`. -/
def endsIn (test : Char → Bool) (t : Text) : Bool :=
  t.getLast?.any test

/-- Whether a piece occurs in a text. -/
def includes : Text → Text → Bool
  | [], piece => piece.isEmpty
  | c :: t, piece => piece.isPrefixOf (c :: t) || includes t piece

/-- Cuts the text at the occurrences of the piece `c :: rest`. The number counts the characters of
the occurrence at hand that are still to be passed over. -/
def splitAtPiece (c : Char) (rest : Text) : Nat → Text → List Text
  | _, [] => [[]]
  | n + 1, _ :: t => splitAtPiece c rest n t
  | 0, d :: t =>
    if (c :: rest).isPrefixOf (d :: t) then [] :: splitAtPiece c rest rest.length t
    else match splitAtPiece c rest 0 t with
      | [] => [[d]]
      | piece :: pieces => (d :: piece) :: pieces

/-- The parts of the text between the occurrences of a nonempty piece. The empty piece splits
nothing. -/
def splitOnText (piece : Text) (t : Text) : List Text :=
  match piece with
  | [] => [t]
  | c :: rest => splitAtPiece c rest 0 t

/-- Every occurrence of a nonempty piece replaced by `new`. -/
def replace (old new : Text) (t : Text) : Text :=
  join new (splitOnText old t)

/-- The first occurrence of a nonempty piece replaced by `new`. -/
def replaceFirst (old new : Text) : Text → Text
  | [] => []
  | c :: t =>
    match dropPrefix? old (c :: t) with
    | some rest => new ++ rest
    | none => c :: replaceFirst old new t

/-- The number of occurrences of a piece. The empty piece occurs at every place, the end
included. -/
def occurrences (piece : Text) (t : Text) : Nat :=
  match piece with
  | [] => t.length + 1
  | c :: rest => (splitAtPiece c rest 0 t).length - 1

/-- The last place where a piece occurs. -/
def lastIndex? (piece : Text) : Text → Option Nat
  | [] => if piece.isEmpty then some 0 else none
  | c :: t =>
    match lastIndex? piece t with
    | some n => some (n + 1)
    | none => if piece.isPrefixOf (c :: t) then some 0 else none

/-- The text before the last occurrence of a piece and the text after it. Without an occurrence
the first part is empty. -/
def cutLast (piece t : Text) : Text × Text :=
  match lastIndex? piece t with
  | some n => (t.take n, t.drop (n + piece.length))
  | none => ([], t)

/-- The text with tabs replaced by blanks up to the next multiple of `size`. The column starts over
after a line feed and after a carriage return. -/
def expandTabs (size : Nat) (column : Nat) : Text → Text
  | [] => []
  | c :: t =>
    if c = '\t' then
      let fill := size - column % size
      List.replicate fill ' ' ++ expandTabs size (column + fill) t
    else if c = '\n' || c = '\r' then c :: expandTabs size 0 t
    else c :: expandTabs size (column + 1) t

/-- Joining the pieces between the occurrences of a character gives the text back. -/
theorem join_splitOn (sep : Char) (t : Text) : join [sep] (splitOn sep t) = t := by
  induction t with
  | nil => rfl
  | cons c t ih =>
    have nonempty : splitOn sep t ≠ [] := by
      cases t with
      | nil => simp [splitOn]
      | cons d t =>
        simp only [splitOn]
        split
        · simp
        · split <;> simp
    unfold splitOn
    split
    · next h =>
      subst h
      cases hs : splitOn c t with
      | nil => exact absurd hs nonempty
      | cons piece pieces =>
        rw [hs] at ih
        simp [join, List.intercalate, List.intersperse] at ih ⊢
        simp [ih]
    · cases hs : splitOn sep t with
      | nil => exact absurd hs nonempty
      | cons piece pieces =>
        rw [hs] at ih
        cases pieces with
        | nil => simpa [join, List.intercalate, List.intersperse] using ih
        | cons next pieces =>
          simp [join, List.intercalate, List.intersperse] at ih ⊢
          simp [ih]

end Text

end CodeConverter

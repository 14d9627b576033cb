import CodeConverter.Pattern.Vocabulary

/-!
# Operators and words for the type checker

The modifiers, casts and marks that only the type checker reads are deleted. Optional chains and
defaults for missing values are written with logical operators.
-/

namespace CodeConverter.Erasure

open Text Pattern

/-- A character of a name. -/
def nameChar : Char → Bool :=
  wordOr "$"

/-- A modifier in front of a member. -/
def modifierWord : Pattern :=
  wordEdge ++ keyword ["public", "private", "protected", "readonly", "abstract", "override",
    "declare"] ++ gap ++ .ahead (.char (wordOr "#[(*"))

/-- The interfaces of a class. -/
def implementsClause : Pattern :=
  gap ++ "implements" ++ gap ++ few1 (wordBlankOr ".<>,") ++
    .ahead (oneOf [blanks ++ "\x7b", blanks ++ atEnd])

/-- A name with its type parameters. -/
def typeParameters : Pattern :=
  group 1 (wordEdge ++
    maybe (oneOf ["function" ++ blanks ++ maybe "*" ++ blanks, "class" ++ gap]) ++
    many1 nameChar) ++
    "<" ++ few (wordBlankOr ",=.[]|'\"{}:?") ++ ">" ++
    .ahead (oneOf [blanks ++ .char (among "(\x7b="), gap ++ "extends" ++ wordEdge])

/-- A cast behind an expression. -/
def cast : Pattern :=
  gap ++ "as" ++ gap ++
    oneOf [
      "const" ++ wordEdge,
      "unknown" ++ wordEdge,
      many1 (wordOr ".") ++
        maybe ("<" ++ many (except "<>") ++ maybe ("<" ++ many (except "<>") ++ ">") ++
        many (except "<>") ++ ">") ++ .star "[]"]

/-- The mark of a value that is not null. -/
def nonNullMark : Pattern :=
  behind (wordOr ")]") ++ "!" ++
    .ahead (oneOf [.char (fun c => isBlank c || among ".[);," c), atEnd])

/-- A caught exception with its type. -/
def typedCatch : Pattern :=
  wordEdge ++ "catch" ++ blanks ++ "(" ++ blanks ++ group 1 (many1 nameChar) ++ blanks ++ ":" ++
    blanks ++ word ++ blanks ++ ")"

/-- The start of an import or export line. -/
def moduleLine : Pattern :=
  atStart ++ keyword ["import", "export"] ++ wordEdge

/-- The word `abstract`. -/
def abstractWord : Pattern :=
  wordEdge ++ "abstract" ++ wordEdge

/-- Modifiers, interfaces, type parameters, casts and marks deleted. -/
def stripWords (t : Text) : Text :=
  let t := modifierWord.replaceWith [] t
  let t := implementsClause.replaceWith [] t
  let t := typeParameters.replaceBy (·.group 1) t
  let t := if moduleLine.matchesStart t then t else cast.replaceWith [] t
  let t := nonNullMark.replaceWith [] t
  typedCatch.replaceBy (fun m => "catch (" ++ m.group 1 ++ ")") t

/-- A chain of members. -/
def memberChain : Pattern :=
  let link := maybe "?" ++ "." ++ many1 nameChar
  many1 nameChar ++ link ++ .star link

/-- The longer and longer starts of a chain, given the start so far. -/
def chainGuards : Text → List Text → List Text
  | start, [] => [start]
  | start, link :: rest => start :: chainGuards (start ++ "." ++ link) rest

/-- An optional chain written with its guards. -/
def expandChain (chain : Text) : Text :=
  match splitOnText "?." chain with
  | first :: link :: rest => "(" ++ join " && " (chainGuards first (link :: rest)) ++ ")"
  | _ => chain

/-- A text with its chains guarded. -/
def expandChains (t : Text) : Text :=
  memberChain.replaceBy (fun m => expandChain m.whole) t

/-- A template of one hole. -/
def holeOnly : Pattern :=
  "`$\x7b" ++ group 1 (many (except "{}`")) ++ "\x7d`"

/-- Optional chains, defaults for missing values, and literals that are only a hole. -/
def stripOperators (t : Text) : Text :=
  holeOnly.replaceBy (·.group 1) (replace "??" "||" (expandChains t))

end CodeConverter.Erasure

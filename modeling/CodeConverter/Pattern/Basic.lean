import CodeConverter.Text.Blank
import CodeConverter.Text.Numeral
import CodeConverter.Text.Word

/-!
# Text patterns

A pattern describes pieces of text. It is matched by trying its choices in order: the first
alternative before the second, the longest run of characters first for a greedy repetition and the
shortest first for a lazy one. `Pattern.outcomes` lists every way to match in that order.
-/

namespace CodeConverter

/-- Descriptions of pieces of text. -/
inductive Pattern where
  | empty
  | literal (text : Text)
  /-- One character of a class. -/
  | char (set : Char → Bool)
  /-- A possibly empty run of characters of a class, the longest first when `greedy`. -/
  | chars (set : Char → Bool) (greedy : Bool)
  | seq (first second : Pattern)
  | alt (first second : Pattern)
  /-- Any number of nonempty repetitions, as many as possible preferred. -/
  | star (body : Pattern)
  | group (number : Nat) (body : Pattern)
  /-- The piece last remembered under a number. -/
  | again (number : Nat)
  /-- The empty text in front of a piece. -/
  | ahead (body : Pattern)
  /-- The empty text where no such piece follows. -/
  | notAhead (body : Pattern)
  /-- The empty text after a character of a class. -/
  | behind (set : Char → Bool)
  /-- The empty text at the start or after a character outside a class. -/
  | notBehind (set : Char → Bool)
  | atStart
  /-- The end of the text, or the place before a line feed that ends it. -/
  | atEnd
  /-- A place with a word character on exactly one side. -/
  | wordEdge

namespace Pattern

/-- A remembered piece: where it starts, the text from there on, and how much of it belongs to the
piece. -/
structure Capture where
  start : Nat
  tail : Text
  length : Nat

/-- The characters of a remembered piece. -/
def Capture.text (capture : Capture) : Text :=
  capture.tail.take capture.length

/-- A place in a text during matching: the character before it, the text after it, the number of
characters before it, and the pieces remembered so far, the latest first. -/
structure State where
  before : Option Char
  ahead : Text
  index : Nat
  captures : List (Nat × Capture)

namespace State

/-- The place before a text. -/
def start (t : Text) : State :=
  ⟨none, t, 0, []⟩

/-- The place after the character `c`, where `rest` follows. -/
def advance (s : State) (c : Char) (rest : Text) : State :=
  { s with before := some c, ahead := rest, index := s.index + 1 }

/-- The place after a literal, if it is ahead. -/
def eat : Text → State → Option State
  | [], s => some s
  | c :: t, s =>
    match s.ahead with
    | [] => none
    | d :: rest => if c = d then eat t (s.advance d rest) else none

/-- Remembers under a number the piece from `first` to this place. -/
def remember (s : State) (number : Nat) (first : State) : State :=
  { s with captures := (number, ⟨first.index, first.ahead, s.index - first.index⟩) :: s.captures }

/-- Whether this is the end of the text or a line feed that ends it follows. -/
def isEnd (s : State) : Bool :=
  s.ahead = [] || s.ahead = ['\n']

/-- Whether exactly one of the two neighbouring characters is a word character. -/
def isWordEdge (s : State) : Bool :=
  s.before.any Text.isWord != s.ahead.head?.any Text.isWord

/-- The places reached over characters of a class, the farthest first, in front of `near`. -/
def stretch (set : Char → Bool) : Text → State → List State → List State
  | [], s, near => s :: near
  | c :: rest, s, near =>
    if set c then stretch set rest (s.advance c rest) (s :: near) else s :: near

end State

/-- The places reached by at most as many nonempty rounds as there are characters in the first
text, more rounds first. -/
def repeatOutcomes (step : State → List State) : Text → State → List State
  | [], s => [s]
  | _ :: fuel, s =>
    (step s).flatMap (fun t => if s.index < t.index then repeatOutcomes step fuel t else []) ++ [s]

/-- All places reached by matching a pattern, in the order of preference. -/
def outcomes : Pattern → State → List State
  | .empty, s => [s]
  | .literal t, s => (s.eat t).toList
  | .char set, s =>
    match s.ahead with
    | [] => []
    | c :: rest => if set c then [s.advance c rest] else []
  | .chars set true, s => State.stretch set s.ahead s []
  | .chars set false, s => (State.stretch set s.ahead s []).reverse
  | .seq p q, s => (p.outcomes s).flatMap q.outcomes
  | .alt p q, s => p.outcomes s ++ q.outcomes s
  | .star p, s => repeatOutcomes p.outcomes s.ahead s
  | .group n p, s => (p.outcomes s).map (·.remember n s)
  | .again n, s =>
    match s.captures.lookup n with
    | none => []
    | some capture => (s.eat capture.text).toList
  | .ahead p, s => if (p.outcomes s).isEmpty then [] else [s]
  | .notAhead p, s => if (p.outcomes s).isEmpty then [s] else []
  | .behind set, s => if s.before.any set then [s] else []
  | .notBehind set, s => if s.before.any set then [] else [s]
  | .atStart, s => if s.index = 0 then [s] else []
  | .atEnd, s => if s.isEnd then [s] else []
  | .wordEdge, s => if s.isWordEdge then [s] else []

end Pattern

end CodeConverter

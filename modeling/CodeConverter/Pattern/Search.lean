import CodeConverter.Pattern.Matching

/-!
# Searching and replacing

A match is a pattern found at a place of a text. Searching takes the leftmost place and the most
preferred outcome there. Cutting a text into segments finds matches one after another from left to
right; a match may be empty, but not twice at the same place. Replacing rebuilds the text from its
segments.
-/

namespace CodeConverter

/-- A pattern found in a text, from the place `first` to the place `last`. -/
structure Match where
  subject : Text
  first : Pattern.State
  last : Pattern.State

namespace Match

/-- The piece remembered under a number, if that part of the pattern was used. -/
def group? (m : Match) (number : Nat) : Option Text :=
  (m.last.captures.lookup number).map (·.text)

/-- The piece remembered under a number, empty if that part of the pattern was not used. -/
def group (m : Match) (number : Nat) : Text :=
  (m.group? number).getD []

/-- The place where the piece remembered under a number starts. -/
def groupStart (m : Match) (number : Nat) : Nat :=
  ((m.last.captures.lookup number).map (·.start)).getD 0

/-- The text of a match. -/
def whole (m : Match) : Text :=
  m.first.ahead.take (m.last.index - m.first.index)

/-- The place where the matched piece ends. -/
def stop (m : Match) : Nat :=
  m.last.index

/-- The pieces remembered under the numbers from one to `count`. -/
def groups (m : Match) (count : Nat) : List (Option Text) :=
  (List.range count).map fun i => m.group? (i + 1)

end Match

/-- A part of a text cut by a pattern: a character between matches, or a match. -/
inductive Segment where
  | plain (c : Char)
  | found (m : Match)

namespace Pattern

/-- The greatest number under which the pattern remembers a piece. -/
def groupCount : Pattern → Nat
  | .seq p q => max p.groupCount q.groupCount
  | .alt p q => max p.groupCount q.groupCount
  | .star p => p.groupCount
  | .group n p => max n p.groupCount
  | .ahead p => p.groupCount
  | .notAhead p => p.groupCount
  | _ => 0

/-- The match at a place. -/
def matchAt (p : Pattern) (subject : Text) (s : State) : Option Match :=
  (p.run Outlook.always { s with captures := [] } some).map fun last => ⟨subject, s, last⟩

/-- The match at a place that is not empty. -/
def matchNonemptyAt (p : Pattern) (subject : Text) (s : State) : Option Match :=
  (p.run Outlook.always { s with captures := [] } fun t => if s.index < t.index then some t
    else none).map
    fun last => ⟨subject, s, last⟩

/-- The match at the start of a text. -/
def matchStart (p : Pattern) (t : Text) : Option Match :=
  p.matchAt t (State.start t)

/-- The leftmost match from a place on; the first text is the one that follows the place. -/
def searchFrom (p : Pattern) (subject : Text) : Text → State → Option Match
  | [], s => p.matchAt subject s
  | c :: rest, s =>
    match p.matchAt subject s with
    | some m => some m
    | none => searchFrom p subject rest (s.advance c rest)

/-- The leftmost match. -/
def search (p : Pattern) (t : Text) : Option Match :=
  p.searchFrom t t (State.start t)

/-- Whether there is a match. -/
def occursIn (p : Pattern) (t : Text) : Bool :=
  (p.search t).isSome

/-- Whether there is a match at the start. -/
def matchesStart (p : Pattern) (t : Text) : Bool :=
  (p.matchStart t).isSome

/-- The character at a place and the place after it, for a place that is not the end. -/
def passOver (s : State) (next : State → List Segment) : List Segment :=
  match s.ahead with
  | [] => []
  | c :: rest => .plain c :: next (s.advance c rest)

/-- The segments from a place on. Every round passes over at least one character, so the first
text, which is at least as long as the rest, bounds their number. -/
def segmentsFrom (p : Pattern) (subject : Text) : Text → State → List Segment
  | [], s =>
    match p.matchAt subject s with
    | some m => [.found m]
    | none => []
  | _ :: fuel, s =>
    match p.matchAt subject s with
    | none => passOver s (segmentsFrom p subject fuel)
    | some m =>
      if s.index < m.last.index then .found m :: segmentsFrom p subject fuel m.last
      else .found m :: match p.matchNonemptyAt subject s with
        | some m => .found m :: segmentsFrom p subject fuel m.last
        | none => passOver s (segmentsFrom p subject fuel)

/-- A text cut into matches and the characters between them. -/
def segments (p : Pattern) (t : Text) : List Segment :=
  p.segmentsFrom t t (State.start t)

/-- The matches of a text. -/
def allMatches (p : Pattern) (t : Text) : List Match :=
  (p.segments t).filterMap fun
    | .plain _ => none
    | .found m => some m

/-- A text with its matches replaced. -/
def replaceBy (p : Pattern) (f : Match → Text) (t : Text) : Text :=
  (p.segments t).flatMap fun
    | .plain c => [c]
    | .found m => f m

/-- A text with its matches replaced by one text. -/
def replaceWith (p : Pattern) (new : Text) (t : Text) : Text :=
  p.replaceBy (fun _ => new) t

/-- Segments rebuilt to a text, with every match replaced by a text that may fail to exist. The
leftmost failure is reported. -/
def rebuild {ε : Type} (f : Match → Except ε Text) : List Segment → Except ε Text
  | [] => pure []
  | .plain c :: rest => do
    let tail ← rebuild f rest
    pure (c :: tail)
  | .found m :: rest => do
    let new ← f m
    let tail ← rebuild f rest
    pure (new ++ tail)

/-- Every match replaced by the text computed from it, unless that fails for some match. -/
def tryReplaceBy {ε : Type} (p : Pattern) (f : Match → Except ε Text) (t : Text) : Except ε Text :=
  rebuild f (p.segments t)

end Pattern

end CodeConverter

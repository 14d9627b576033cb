import CodeConverter.Brace.Scan
import CodeConverter.Erasure.Operator
import CodeConverter.Erasure.Signature
import CodeConverter.Grammar.TypeScript

/-!
# Erasing types from TypeScript

Lines map one to one with their indentation kept; a line left empty by the deletions is dropped.
The bodies of interfaces, type aliases and ambient declarations are skipped until their braces
balance. Enums become objects with numbered members.
-/

namespace CodeConverter.Erasure

open Text Pattern

/-- The state of the erasure. -/
structure State where
  output : Array Text
  inComment : Bool
  hasContent : Bool
  /-- The open braces of the body being skipped. -/
  skipping : Int
  /-- The number of the next member, inside an enum. -/
  enumIndex : Option Int
  /-- The line is inside a parameter list that an earlier line opened. -/
  inParameters : Bool

/-- The state before the first line. -/
def State.initial : State :=
  ⟨#[], false, false, 0, none, false⟩

/-- The braces opened minus the braces closed. -/
def braceBalance (t : Text) : Int :=
  (t.count '{' : Int) - (t.count '}' : Int)

/-- A member of an enum. -/
def enumMember : Pattern :=
  atStart ++
    group 1 (oneOf [word, .char (among "\"'") ++ many (except "\"'") ++ .char (among "\"'")]) ++
    blanks ++ maybe ("=" ++ blanks ++ group 2 something) ++ blanks ++ maybe "," ++ atEnd

/-- The value written for a member without an initializer. -/
def nextValue (index : Option Int) : Except Fault Text :=
  match index with
  | none => .ok "None"
  | some n => writeInt n

/-- An enum member as an entry of an object, and the number of the member after it. -/
def enumEntry (index : Option Int) (member : Text) : Except Fault (Option Int × Text) := do
  match enumMember.matchStart (strip member) with
  | none => return (index, strip member)
  | some m =>
    let value ← match m.group? 2 with
      | some value => pure value
      | none => nextValue index
    let next ← if Loop.integerLiteral.matchesStart value then do pure (some ((← readInt value) + 1))
        else pure index
    return (next, m.group 1 ++ ": " ++ value)

/-- Enum members as entries of an object, and the number of the member after them. -/
def enumEntries : Option Int → List Text → Except Fault (Option Int × List Text)
  | index, [] => pure (index, [])
  | index, member :: rest => do
    let (index, entry) ← enumEntry index member
    let (index, entries) ← enumEntries index rest
    return (index, entry :: entries)

/-- A line inside an enum. -/
def enumLine (s : State) (t : Text) : Except Fault (State × Text) := do
  if startsWith t "\x7d" then return ({ s with enumIndex := none }, "\x7d;")
  let (index, entry) ← enumEntry s.enumIndex t
  return ({ s with enumIndex := index }, if endsWith t "," then entry ++ "," else entry)

/-- The header of an enum. -/
def enumHeader (s : State) (l : Classified) : Except Fault (State × Text) := do
  let (index, entries) ← enumEntries (some 0) (splitTopLevel (l.group 3))
  let entries := join ", " entries
  let start := l.group 1 ++ "const " ++ l.group 2 ++ " = \x7b"
  if (l.group? 4).isNone then
    return ({ s with enumIndex := index }, stripEnd (start ++ " " ++ entries))
  let text := if entries.isEmpty then start ++ "\x7d;" else start ++ " " ++ entries ++ " \x7d;"
  return ({ s with enumIndex := none }, text)

/-- A line that only concerns the type checker. Its body is skipped if it goes on. -/
def typeOnlyLine (s : State) (line : Text) : State :=
  let balance := braceBalance line
  if balance > 0 then { s with skipping := balance } else s

/-- A signature whose parameters are on the lines after it. -/
def signatureHead : Pattern :=
  atStart ++
    oneOf [
      maybe ("export" ++ gap) ++ maybe ("default" ++ gap) ++ maybe ("async" ++ gap) ++ "function" ++
      wordEdge ++ anything, maybe ("static" ++ gap) ++ maybe ("async" ++ gap) ++ many1 nameChar,
      "constructor"] ++
    blanks ++ "(" ++ atEnd

/-- A declared variable up to its colon. -/
def annotatedVariable : Pattern :=
  wordEdge ++ keyword ["const", "let", "var"] ++ gap ++ many1 nameChar ++ blanks ++ group 1 ":"

/-- A property up to its colon. -/
def annotatedProperty : Pattern :=
  atStart ++ noneOf ["default", "case"] ++
    group 1 (maybe ("static" ++ gap) ++ maybe "#" ++ many1 nameChar) ++
    maybe (.char (among "?!")) ++ blanks ++ ":"

/-- The annotation after the colon at a place removed. -/
def stripVariable (t : Text) (colon : Nat) : Text :=
  let rest := t.drop (typeEnd t (colon + 1) false)
  let separator : Text := if rest.head? = some '=' then " " else ""
  stripEnd (t.take colon) ++ separator ++ stripStart rest

/-- The annotations of all variables of a line removed, the last one first. -/
def stripVariables (t : Text) : Text :=
  (annotatedVariable.allMatches t).foldr (fun m t => stripVariable t (m.groupStart 1)) t

/-- A property without its type. -/
def stripProperty (t : Text) : Text :=
  match annotatedProperty.matchStart t with
  | none => t
  | some m =>
    if endsWith t ";" && !(t.take m.stop).contains '(' then
      let value := strip (afterType (t.drop m.stop))
      if value.isEmpty || value = [';'] then m.group 1 ++ ";" else m.group 1 ++ " " ++ value
    else t

/-- A line without the annotations of signatures, variables and properties. -/
def stripAnnotations (s : State) (t : Text) : State × Text :=
  if s.inParameters then
    if startsWith t ")" then
      ({ s with inParameters := false }, stripStart ((stripSignatures ("(" ++ t)).drop 1))
    else
      let stripped := stripParameter (dropEndWhile (· = ',') t)
      (s, if endsWith t "," then stripped ++ "," else stripped)
  else if signatureHead.matchesStart t && !controlHead.occursIn t.dropLast then
    ({ s with inParameters := true }, t)
  else (s, stripProperty (stripVariables (stripSignatures t)))

/-- A line of code. An abstract method disappears. -/
def codeLine (s : State) (t : Text) : State × Text :=
  let isAbstract := abstractWord.occursIn t
  let (s, t) := stripAnnotations s (stripWords t)
  if isAbstract && endsWith t ";" && t.contains '(' then (s, []) else (s, stripOperators t)

/-- The state with a line added to the output, unless it is empty. -/
def State.write (s : State) (indentation code : Text) : State :=
  if code.isEmpty then s else { s with output := s.output.push (indentation ++ code) }

/-- Visits a line. -/
def visitLine (s : State) (line : Text) : Except Fault State := do
  let t := strip line
  if t.isEmpty then return { s with output := s.output.push [] }
  let s := { s with hasContent := true }
  let indentation := line.takeWhile isBlank
  if s.skipping ≠ 0 then return { s with skipping := s.skipping + braceBalance t }
  if s.inComment || startsWith t "/*" then
    return { s with
      inComment := Brace.commentAfter s.inComment t
      output := s.output.push (stripEnd line) }
  if startsWith t "//" then return { s with output := s.output.push (stripEnd line) }
  if s.enumIndex.isSome then
    let (s, code) ← enumLine s t
    return s.write indentation code
  let l := classify Grammar.TypeScript.all t
  match l.kind with
  | .typeOnly => return typeOnlyLine s t
  | .enumHeader =>
    let (s, code) ← enumHeader s l
    return s.write indentation code
  | _ =>
    let (s, code) := codeLine s t
    return s.write indentation code

/-- The conversion as a machine that reads lines. -/
def machine : LineMachine State where
  initial := State.initial
  visit := visitLine
  finish := pure
  output := State.output

end CodeConverter.Erasure

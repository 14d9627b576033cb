import CodeConverter.Indent.Declaration

/-!
# The scan of indented sources

A line is blank, part of a block comment, part of an unfinished bracket, a comment, or code. Code
first opens or closes blocks according to its width and is then visited by its kind.
-/

namespace CodeConverter.Indent

open Text

/-- A line of a block comment, given that it is open or opened by the line. -/
def commentLine (s : State) (t : Text) : Except Fault (State × Text) :=
  if s.inComment then
    match s.commentDelimiter with
    | none => .error .missingDelimiter
    | some delimiter =>
      if includes t delimiter then
        let s := { s with inComment := false }
        if t = delimiter then .ok (s, "*/") else .ok (s, replace delimiter " */" t)
      else .ok (s, t)
  else
    let delimiter := t.take 3
    if 2 ≤ occurrences delimiter t then
      let (head, tail) := cutLast delimiter (t.drop 3)
      .ok (s, "/* " ++ strip head ++ " */" ++ tail)
    else
      .ok ({ s with inComment := true, commentDelimiter := some delimiter },
      stripEnd ("/* " ++ strip (t.drop 3)))

/-- A line inside brackets that an earlier line left open. -/
def continuationLine (c : Conversion) (s : State) (t : Text) : Except Fault State := do
  let s := { s with brackets := max (s.brackets + bracketBalance t) 0 }
  let text ← s.expression c t
  let text := if s.brackets = 0 then s.terminate text else text
  let depth := if t.head?.any isClosing then s.depth else s.depth + 1
  return s.emit c depth (.line text)

/-- The width of the blanks before a line, tabs reaching to multiples of four. -/
def width (line : Text) : Nat :=
  ((expandTabs 4 0 line).takeWhile isBlank).length

/-- Opens or closes blocks so that a line of the given width belongs to the innermost one. -/
def settleBlocks (c : Conversion) (s : State) (width : Nat) : Except Fault State := do
  let s := { s with closed := 0 }
  let s ←
    if s.pendingScope.isSome then do
      if (← innermost s.widths) < width then pure (s.push width) else s.closeEmpty c
    else pure s
  s.closeWider c width s.widths.length

/-- Whether a header goes on after a block. -/
def isContinuation : LineKind → Bool
  | .elifHeader => true
  | .elseHeader => true
  | .exceptHeader => true
  | .finallyHeader => true
  | _ => false

/-- Folds the brace closed by a continuation into its own line. If no brace was just closed, the
continuation loses its leading brace. -/
def mergeContinuation (s : State) (t : Text) : State × Text :=
  if 0 < s.closed && (s.output.back?.map strip) = some ['}'] then
    ({ s with output := s.output.pop }, t)
  else
    match t with
    | '}' :: rest => (s, stripStart rest)
    | _ => (s, t)

/-- Code with a comment behind it. -/
def annotate (code : Code) (note : Text) : Code :=
  match code with
  | .nothing => .line note
  | .line t => .line (t ++ "  " ++ note)
  | .lines ts => .lines (ts.dropLast ++ [ts.getLastD [] ++ "  " ++ note])

/-- Visits a line of code. -/
def codeLine (c : Conversion) (s : State) (t : Text) : Except Fault State := do
  let (t, comment) := splitComment t
  let s := { s with brackets := max (bracketBalance t) 0 }
  let l := classify Grammar.Python.all t
  let (s, code) ← visit c s l
  let (s, code) := match isContinuation l.kind, code with
    | true, .line t =>
      let (s, t) := mergeContinuation s t
      (s, Code.line t)
    | _, code => (s, code)
  let code := match comment with
    | some (ch :: text) => annotate code ("// " ++ (ch :: text))
    | _ => code
  return s.emit c s.depth code

/-- Whether a line starts with triple quotes. -/
def startsComment (t : Text) : Bool :=
  startsWith t "\"\"\"" || startsWith t "'''"

/-- Visits a line. -/
def visitLine (c : Conversion) (s : State) (line : Text) : Except Fault State := do
  let t := strip line
  if t.isEmpty then return { s with output := s.output.push [] }
  let s := { s with hasContent := true }
  if s.inComment then
    let (s, text) ← commentLine s t
    return s.emit c s.depth (.line text)
  if s.brackets > 0 then continuationLine c s t
  else if startsWith t "#" then
    return s.emit c s.depth (.line (stripEnd ("// " ++ strip (t.drop 1))))
  else
    let s ← settleBlocks c s (width line)
    if startsComment t then
      let (s, text) ← commentLine s t
      return s.emit c s.depth (.line text)
    codeLine c s t

/-- The end of the source: all blocks are closed. PHP code is put between its tags. -/
def finish (c : Conversion) (s : State) : Except Fault State := do
  let s ← if s.pendingScope.isSome then s.closeEmpty c else pure s
  let s ← s.closeAll c s.widths.length
  if c = .toPhp && s.hasContent then
    return { s with output := #["<?php".toList] ++ s.output ++ #["?>".toList] }
  return s

/-- The conversion as a machine that reads lines. -/
def machine (c : Conversion) : LineMachine State where
  initial := State.initial
  visit := visitLine c
  finish := finish c
  output := State.output

end CodeConverter.Indent

import CodeConverter.Fault

/-!
# Line machines

A conversion reads its source line by line. It is given by a starting state, what one line does to
the state, and what the end of the source does to it; the result is the output lines of the last
state. A visited line gives no code, one line of code, or several lines, which are indented by the
nesting depth.
-/

namespace CodeConverter

/-- The code given by a visited line. -/
inductive Code where
  | nothing
  | line (text : Text)
  | lines (texts : List Text)
  deriving DecidableEq

/-- The text of some code. -/
def Code.text? : Code → Option Text
  | .nothing => none
  | .line t => some t
  | .lines ts => some (Text.unlines ts)

/-- A text with every nonempty line indented by `depth` levels of `size` blanks. -/
def indentLines (size depth : Nat) (t : Text) : List Text :=
  (Text.lines t).map fun l => if l.isEmpty then l else List.replicate (depth * size) ' ' ++ l

/-- The output with indented code behind it. -/
def emit (size depth : Nat) (code : Code) (output : Array Text) : Array Text :=
  match code.text? with
  | none => output
  | some t => output ++ (indentLines size depth t).toArray

/-- A conversion that works line by line. -/
structure LineMachine (σ : Type) where
  initial : σ
  visit : σ → Text → Except Fault σ
  finish : σ → Except Fault σ
  output : σ → Array Text

namespace LineMachine

variable {σ : Type}

/-- The state after some lines. -/
def run (m : LineMachine σ) (lines : List Text) : Except Fault σ :=
  lines.foldlM m.visit m.initial

/-- The lines written for a source. -/
def convert (m : LineMachine σ) (source : Text) : Except Fault Text := do
  let last ← m.finish (← m.run (Text.lines source))
  return Text.unlines (m.output last).toList

/-- The states after each of the lines and after the end of the source. The first failure ends the
list. -/
def traceFrom (m : LineMachine σ) : σ → List Text → List (Option Text × Except Fault σ)
  | s, [] => [(none, m.finish s)]
  | s, line :: rest =>
    match m.visit s line with
    | .ok next => (some line, .ok next) :: m.traceFrom next rest
    | .error fault => [(some line, .error fault)]

/-- The lines of a source with the state after each. -/
def trace (m : LineMachine σ) (source : Text) : List (Option Text × Except Fault σ) :=
  m.traceFrom m.initial (Text.lines source)

end LineMachine

end CodeConverter

import CodeConverter.Line.Machine
import CodeConverter.Proofs.Text.Part

/-!
# Program trees

A program made of calls, blocks and conditional chains, independent of how it is laid out. The
headers of blocks that are no conditionals depend on the language. A tree is written with braces or
with indentation alone, one level deeper in every block.
-/

namespace CodeConverter.Program

open Text

mutual

/-- A call, a block with its header, or a conditional chain. -/
inductive Tree (H : Type) where
  | call (name arguments : Text)
  | block (header : H) (body : Forest H)
  | branch (condition : Text) (body : Forest H) (rest : Branches H)

/-- The statements of a block. -/
inductive Forest (H : Type) where
  | nil
  | cons (first : Tree H) (rest : Forest H)

/-- The other blocks of a conditional chain. -/
inductive Branches (H : Type) where
  | done
  | elseIf (condition : Text) (body : Forest H) (rest : Branches H)
  | otherwise (body : Forest H)

end

variable {H : Type}

/-- The headers of loops and functions. -/
inductive Opening where
  | loop (condition : Text)
  | function (name : Text) (parameters : List Text)

/-- What a language allows in a tree. A header may depend on the header around it. -/
structure Rules (H : Type) where
  call : Text → Text → Prop
  condition : Text → Prop
  header : Option H → H → Prop
  body : Forest H → Prop

mutual

/-- The tree follows the rules inside a block with the given header. -/
def Tree.Follows (rules : Rules H) (around : Option H) : Tree H → Prop
  | .call name arguments => rules.call name arguments
  | .block header body => rules.header around header ∧ rules.body body ∧
      body.Follows rules (some header)
  | .branch condition body rest =>
    rules.condition condition ∧ rules.body body ∧ body.Follows rules none ∧ rest.Follows rules

/-- All statements follow the rules. -/
def Forest.Follows (rules : Rules H) (around : Option H) : Forest H → Prop
  | .nil => True
  | .cons first rest => first.Follows rules around ∧ rest.Follows rules around

/-- The other blocks of a conditional chain follow the rules. -/
def Branches.Follows (rules : Rules H) : Branches H → Prop
  | .done => True
  | .elseIf condition body rest =>
    rules.condition condition ∧ rules.body body ∧ body.Follows rules none ∧ rest.Follows rules
  | .otherwise body => rules.body body ∧ body.Follows rules none

end

/-- A line of code at a depth. -/
def lineAt (size depth : Nat) (t : Text) : Text :=
  List.replicate (depth * size) ' ' ++ t

/-- A line is written at its depth. -/
theorem toList_emit_line (size depth : Nat) (output : Array Text) {t : Text} (hne : t ≠ [])
    (hline : '\n' ∉ t) :
    (emit size depth (.line t) output).toList = output.toList ++ [lineAt size depth t] := by
  have hlines : lines t = [t] := splitOn_of_not_mem hline
  simp [emit, Code.text?, indentLines, hlines, lineAt, hne]

/-- How calls, conditions and headers are written in a target language. A block without a header
has no braces and no depth of its own. -/
structure Target (H : Type) where
  /-- The blanks per level of depth. -/
  size : Nat
  call : Text → Text → Except Fault Text
  condition : Text → Except Fault Text
  header : H → Except Fault (Option Text)

mutual

/-- The lines of a tree written with braces. -/
def Tree.braced (target : Target H) (depth : Nat) : Tree H → Except Fault (List Text)
  | .call name arguments => do
    return [lineAt target.size depth (← target.call name arguments)]
  | .block header body => do
    match ← target.header header with
    | none => body.braced target depth
    | some text =>
      let inner ← body.braced target (depth + 1)
      return lineAt target.size depth (text ++ " \x7b") :: inner ++
        [lineAt target.size depth "\x7d"]
  | .branch condition body rest => do
    let text ← target.condition condition
    let inner ← body.braced target (depth + 1)
    let others ← rest.braced target depth
    return lineAt target.size depth ("if " ++ text ++ " \x7b") :: inner ++ others

/-- The lines of statements written with braces. -/
def Forest.braced (target : Target H) (depth : Nat) : Forest H → Except Fault (List Text)
  | .nil => pure []
  | .cons first rest => do
    let lines ← first.braced target depth
    let others ← rest.braced target depth
    return lines ++ others

/-- The lines of the other blocks of a conditional chain, from the closing brace of the block
before them on. -/
def Branches.braced (target : Target H) (depth : Nat) : Branches H → Except Fault (List Text)
  | .done => pure [lineAt target.size depth "\x7d"]
  | .elseIf condition body rest => do
    let text ← target.condition condition
    let inner ← body.braced target (depth + 1)
    let others ← rest.braced target depth
    return lineAt target.size depth ("\x7d else if " ++ text ++ " \x7b") :: inner ++ others
  | .otherwise body => do
    let inner ← body.braced target (depth + 1)
    return lineAt target.size depth "\x7d else \x7b" :: inner ++ [lineAt target.size depth "\x7d"]

end

mutual

/-- The lines of a tree written with indentation alone. -/
def Tree.indented (target : Target H) (depth : Nat) : Tree H → Except Fault (List Text)
  | .call name arguments => do
    return [lineAt target.size depth (← target.call name arguments)]
  | .block header body => do
    match ← target.header header with
    | none => body.indented target depth
    | some text =>
      let inner ← body.indented target (depth + 1)
      return lineAt target.size depth (text ++ ":") :: inner
  | .branch condition body rest => do
    let text ← target.condition condition
    let inner ← body.indented target (depth + 1)
    let others ← rest.indented target depth
    return lineAt target.size depth ("if " ++ text ++ ":") :: inner ++ others

/-- The lines of statements written with indentation alone. -/
def Forest.indented (target : Target H) (depth : Nat) : Forest H → Except Fault (List Text)
  | .nil => pure []
  | .cons first rest => do
    let lines ← first.indented target depth
    let others ← rest.indented target depth
    return lines ++ others

/-- The lines of the other blocks of a conditional chain written with indentation alone. -/
def Branches.indented (target : Target H) (depth : Nat) : Branches H → Except Fault (List Text)
  | .done => pure []
  | .elseIf condition body rest => do
    let text ← target.condition condition
    let inner ← body.indented target (depth + 1)
    let others ← rest.indented target depth
    return lineAt target.size depth ("elif " ++ text ++ ":") :: inner ++ others
  | .otherwise body => do
    let inner ← body.indented target (depth + 1)
    return lineAt target.size depth "else:" :: inner

end

end CodeConverter.Program

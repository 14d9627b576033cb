import CodeConverter.Brace.ToBrace
import CodeConverter.Proofs.Expression.Total
import CodeConverter.Proofs.Line.Classified

/-!
# Moves: what a line does to the open scopes

Visiting a line changes the stack of scopes, the names of the open classes and the wait for a brace
in one of six ways. Which of them it is depends on the kind of the line, on its last character and
on the innermost scope, but not on how its expressions are respelled. Everything about the stacks is
derived from the move of a line.
-/

namespace CodeConverter.Brace

open Text Literal

variable {t : Text} {scope : Option Scope}

/-- The stacks and the wait for a brace are the same. -/
structure State.Agrees (s t : State) : Prop where
  scopes : s.scopes = t.scopes
  classNames : s.classNames = t.classNames
  awaitingBrace : s.awaitingBrace = t.awaitingBrace

@[simp] theorem State.Agrees.rfl {s : State} : s.Agrees s := ⟨Eq.refl _, Eq.refl _, Eq.refl _⟩

/-- The second output is the first one, or lacks the closing brace that was its last line. -/
def Trims (before after : Array Text) : Prop :=
  after = before ∨ ∃ line, strip line = ['}'] ∧ before = after.push line

/-- What is kept while a line is visited is the same too: whether a block comment is open and
whether there was any code. A line takes back at most a closing brace. -/
structure State.Alike (s t : State) : Prop extends State.Agrees s t where
  inComment : s.inComment = t.inComment
  hasContent : s.hasContent = t.hasContent
  output : Trims t.output s.output

@[simp] theorem State.Alike.rfl {s : State} : s.Alike s :=
  ⟨.rfl, Eq.refl _, Eq.refl _, .inl (Eq.refl _)⟩

/-- What a line can do to the stacks. -/
inductive Move where
  | stay
  /-- A literal is continued on the next line. -/
  | literal
  /-- A header opens a scope. -/
  | opens (scope : Scope)
  /-- A header opens a scope of a class, whose name is remembered. -/
  | enters (scope : Scope) (name : Text)
  /-- An opening brace stands alone. -/
  | brace
  | closes

/-- What the state after a line has to do with the one before, given the move of the line. -/
def Move.Leads (c : Conversion) (s : State) (line : Text) (after : State) : Move → Prop
  | .stay => after.Alike s
  | .literal => after.Alike (s.push .literal)
  | .opens scope => after.Alike (s.openBlock line scope)
  | .enters scope name => after.Alike ((s.enterClass name).openBlock line scope)
  | .brace =>
      after.Alike (if s.awaitingBrace then { s with awaitingBrace := false } else s.push .block)
  | .closes => ∃ scope t, s.closeBlock c = .ok (scope, t) ∧ after.Alike t

/-- A line with its object key in quotes. -/
def keyed (line : Text) : Text :=
  ToIndent.objectKey.replaceBy (fun m => "'" ++ m.group 1 ++ "': ") line

/-- What has to be known about a line and a state to follow the visit: where it can fail, it fails
in a listed way. -/
structure Ready (c : Conversion) (fails : Fault → Prop) (fine : Text → Prop) (s : State)
    (l : Classified) : Prop where
  /-- Fine texts can be respelled. -/
  expression : ∀ t, fine t → Meets fails (fun _ => True) (c.expression t)
  lighter : ∀ t u, fine t → Lighter u t → fine u
  line : fine l.line
  keyed : fine (keyed l.line)
  groups : ∀ k, l.group k <:+: l.line
  range : ∀ m, l.found = some m → Meets fails (fun _ => True) (Loop.rangeArguments (.ofMatch m))
  close : Meets fails (fun _ => True) (s.closeBlock c)
  className :
    c = .javaToPython → s.inClassBody = true → Meets fails (fun _ => True) (innermost s.classNames)
  format : ∀ arguments, c = .javaToPython → l.kind = .printLine → l.group 1 = "printf" →
    c.expression (l.group 2) = .ok arguments → arguments ≠ [] → splitArguments arguments = [] →
    fails .missingFormat
  base : c = .csharpToJavaScript → l.kind = .classHeader → l.group 2 ≠ [] →
    splitArguments (l.group 2) = [] → fails .emptyBaseList

namespace Ready

variable {c : Conversion} {fails : Fault → Prop} {fine : Text → Prop} {s : State} {l : Classified}

theorem of_classify (c : Conversion) (s : State) (u : Text) :
    Ready c (fun _ => True) (fun _ => True) s (classify c.grammar u) where
  expression := fun _ _ => meets_true _
  lighter := fun _ _ _ _ => trivial
  line := trivial
  keyed := trivial
  groups := fun k => by
    rw [classify_line]
    exact classify_group_isInfix c.grammar u k
  range := fun _ _ => meets_true _
  close := meets_true _
  className := fun _ _ => meets_true _
  format := fun _ _ _ _ _ _ _ => trivial
  base := fun _ _ _ _ => trivial

section

variable (h : Ready c fails fine s l)

include h

theorem part (ht : t <:+: l.line) : Meets fails (fun _ => True) (c.expression t) :=
  h.expression t (h.lighter _ _ h.line (.of_isInfix ht))

theorem group (k : Nat) : Meets fails (fun _ => True) (c.expression (l.group k)) :=
  h.part (h.groups k)

theorem lighterGroup {k : Nat} (ht : Lighter t (l.group k)) :
    Meets fails (fun _ => True) (c.expression t) :=
  h.expression t (h.lighter _ _ h.line ((Lighter.of_isInfix (h.groups k)).trans ht))

end

end Ready

/-- Closing a block takes the innermost scope, and its name if it is a class. -/
theorem closeBlock_cases {c : Conversion} {s t : State} (h : s.closeBlock c = .ok (scope, t)) :
    (s.scopes = [] ∧ scope = none ∧ t = s) ∨ ∃ first rest, s.scopes = first :: rest ∧
    scope = some first ∧
      t = { s with
        scopes := rest
        classNames := if c.endsClass first then s.classNames.tail else s.classNames } := by
  unfold State.closeBlock at h
  cases hscopes : s.scopes with
  | nil =>
    rw [hscopes] at h
    cases h
    exact .inl ⟨rfl, rfl, rfl⟩
  | cons first rest =>
    refine .inr ⟨first, rest, rfl, ?_⟩
    simp only [hscopes] at h
    split at h
    · rename_i hends
      obtain ⟨names, hnames, h⟩ := exists_of_bind h
      cases h
      rw [if_pos hends]
      cases hclasses : s.classNames with
      | nil =>
        rw [hclasses] at hnames
        cases hnames
      | cons name others =>
        rw [hclasses] at hnames
        cases hnames
        exact ⟨rfl, rfl⟩
    · rename_i hends
      cases h
      rw [if_neg hends]
      exact ⟨rfl, rfl⟩

theorem closeBlock_leads {c : Conversion} {s after : State} {line : Text}
    (h : s.closeBlock c = .ok (scope, after)) : Move.closes.Leads c s line after :=
  ⟨scope, after, h, .rfl⟩

end CodeConverter.Brace

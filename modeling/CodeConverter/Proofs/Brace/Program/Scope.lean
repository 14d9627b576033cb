import CodeConverter.Proofs.Block.Solid
import CodeConverter.Proofs.Brace.Layout
import CodeConverter.Proofs.Line.Header

/-!
# The scopes around a piece

A piece is visited inside some scopes. A header adds one, and the brace of its block adds nothing,
whether it stands with the header or is awaited on the next line.
-/

namespace CodeConverter.Brace

open Text Program Block Grammar List

/-- The depth of code inside some scopes. -/
def level (c : Conversion) (scopes : List Scope) : Nat :=
  c.style.baseDepth + (scopes.filter fun scope => !c.hides scope).length

/-- The state inside some scopes with the output written so far. -/
structure At (around : List Scope) (awaiting : Bool) (out : List Text) (s : State) : Prop where
  scopes : s.scopes = around
  awaiting : s.awaitingBrace = awaiting
  output : s.output.toList = out
  /-- Every open class has a name. -/
  names : s.classNames.length = around.count .classBody

/-- The conversion visits pieces as they are and does not write a brace that was awaited. -/
structure Absorbs (c : Conversion) : Prop where
  unprepared : c ≠ .phpToPython
  kind : (classify c.grammar "\x7b").kind = .openBrace
  visit : ∀ s : State, s.awaitingBrace = true →
    visit c s (classify c.grammar "\x7b") = .ok ({ s with awaitingBrace := false }, .nothing)

variable {c : Conversion} {scopes : List Scope} {scope : Scope} {awaiting : Bool}
    {out ls : List Text} {s : State} {start : List Text → State → Prop} {depth : Nat}

section

variable (h : At scopes awaiting out s)

include h

theorem At.depth_eq : s.depth c = level c scopes := by
  rw [State.depth, h.scopes]
  rfl

theorem At.emit {code : Code}
    (hcode : ∀ output, (CodeConverter.emit c.style.indentSize depth code output).toList =
    output.toList ++ ls) : At scopes awaiting (out ++ ls) (s.emit c depth code) where
  scopes := h.scopes
  awaiting := h.awaiting
  output := by
    rw [← h.output]
    exact hcode s.output
  names := h.names

theorem At.openBlock (hscope : scope ≠ .classBody) (line : Text) :
    At (scope :: scopes) (!endsWith (stripEnd line) "\x7b") out (s.openBlock line scope) where
  scopes := by
    show scope :: s.scopes = _
    rw [h.scopes]
  awaiting := rfl
  output := h.output
  names := by
    rw [count_cons_of_ne hscope]
    exact h.names

end

theorem writes_piece {piece : Piece} {target : List Scope} (code : Code) (hc : Absorbs c)
    (hne : piece.text ≠ []) (hskipped : scopes.contains .skipped = false)
    (hstart : ∀ out s, start out s → s.scopes = scopes ∧ s.awaitingBrace = false ∧
      ∃ t, visit c s (classify c.grammar piece.text) = .ok (t, code) ∧ At target awaiting out t)
    (hdepth : min (level c scopes) (level c target) = depth)
    (hcode : ∀ output, (emit c.style.indentSize depth code output).toList = output.toList ++ ls) :
    Writes c start (At target awaiting) [piece] ls := by
  refine .single hc.unprepared hne fun out s hs => ?_
  obtain ⟨hscopes, hawaiting, t, hvisit, ht⟩ := hstart out s hs
  have hbefore : s.depth c = level c scopes := by
    rw [State.depth, hscopes]
    rfl
  refine ⟨_, visitPiece_settled (by rw [hscopes]; exact hskipped) hawaiting hvisit, ?_⟩
  rw [hbefore, ht.depth_eq, hdepth]
  exact ht.emit hcode

theorem writes_brace (hc : Absorbs c) (hskipped : scopes.contains .skipped = false) :
    Writes c (At scopes true) (At scopes false) [.opening] [] := by
  refine .single hc.unprepared (by decide) fun out s hs => ?_
  have hnot : s.scopes.contains .skipped = false := by
    rw [hs.scopes]
    exact hskipped
  refine ⟨_, visitPiece_opening hnot hc.kind (hc.visit s hs.awaiting), ?_⟩
  rw [append_nil]
  exact ⟨hs.scopes, rfl, hs.output, hs.names⟩

/-- A header is written once, wherever its brace stands. -/
theorem writes_header {opening : Text} {front : List Piece} (code : Code)
    (hopens : Opens opening front)
    (hplain : Plain opening) (hne : opening ≠ []) (hc : Absorbs c)
    (hskipped : (scope :: scopes).contains .skipped = false)
    (hstart : ∀ tail, IsTail tail → ∀ out s, start out s → s.scopes = scopes ∧
    s.awaitingBrace = false ∧
      ∃ t, visit c s (classify c.grammar (opening ++ tail)) = .ok (t, code) ∧
        At (scope :: scopes) (!endsWith (stripEnd (opening ++ tail)) "\x7b") out t)
    (hdepth : min (level c scopes) (level c (scope :: scopes)) = depth)
    (hcode : ∀ output, (emit c.style.indentSize depth code output).toList = output.toList ++ ls) :
    Writes c start (At (scope :: scopes) false) front ls := by
  have houter : scopes.contains .skipped = false := by
    rw [contains_cons, Bool.or_eq_false_iff] at hskipped
    exact hskipped.2
  cases hopens with
  | sameLine =>
    refine writes_piece code hc (by simp [Piece.text]) houter (fun out s hs => ?_) hdepth hcode
    have hvisit := hstart _ .brace out s hs
    rwa [awaits_brace] at hvisit
  | nextLine =>
    have hbare : Writes c start (At (scope :: scopes) true) [.header opening] ls := by
      refine writes_piece code hc hne houter (fun out s hs => ?_) hdepth hcode
      have hvisit := hstart [] .bare out s hs
      rw [append_nil, awaits_bare (hplain.not_mem rfl)] at hvisit
      exact hvisit
    have hall := hbare.append (writes_brace hc hskipped)
    rwa [append_nil] at hall

theorem emit_line {size depth : Nat} {text : Text} (hne : text ≠ []) (hline : '\n' ∉ text) :
    ∀ output, (emit size depth (.line text) output).toList = output.toList ++
    [lineAt size depth text] :=
  fun output => toList_emit_line size depth output hne hline

/-- What the pieces of a source write is its conversion. -/
theorem convert_of_writes {source : Text} {pieces : List Piece} (hc : c ≠ .phpToPython)
    (hfinish : ∀ s, finish c s = s) (hlines : OnLines pieces (lines source))
    (hproper : ∀ piece ∈ pieces, Proper piece)
    (h : Writes c (At [] false) (At [] false) pieces out) :
    (machine c).convert source = .ok (unlines out) := by
  obtain ⟨s, hs, hstop⟩ := h [] { State.initial with hasContent := true } ⟨rfl, rfl, rfl, rfl⟩
  rw [LineMachine.convert, run_layout hc hlines hproper, hs]
  show Except.ok (unlines (finish c s).output.toList) = _
  rw [hfinish, hstop.output, nil_append]

end CodeConverter.Brace

import CodeConverter.Brace.Scan
import CodeConverter.Proofs.Brace.Move

/-!
# The pieces visited by a conversion

A line of code is visited piece by piece. Blank lines, comments and pieces inside a skipped scope
are passed over, and nothing is visited after a failure.
-/

namespace CodeConverter.Brace

open Text Bool

/-- The code of a line: without the blanks around it, in PHP also without tags. -/
def codeOf (c : Conversion) (line : Text) : Text :=
  if c = .phpToPython then strip (withoutTags line) else strip line

/-- The pieces into which a line of code is split. A blank line or comment has none. -/
def piecesOf (c : Conversion) (s : State) (line : Text) : List Text :=
  let code := codeOf c line
  if code.isEmpty || s.inComment || includes code "/*" || (lineComment? c code).isSome then []
  else Block.split code

/-- The classified pieces that are visited, up to and including one at which the visit fails. -/
def visitedPieces (c : Conversion) : State → List Text → List Classified
  | _, [] => []
  | s, piece :: rest =>
    let piece := prepare c piece
    if piece.isEmpty then visitedPieces c s rest
    else
      let later :=
        match visitPiece c s piece with
        | .ok next => visitedPieces c next rest
        | .error _ => []
      if s.scopes.contains .skipped then later else classify c.grammar piece :: later

/-- The classified pieces of some lines that are visited. -/
def visitedLines (c : Conversion) : State → List Text → List Classified
  | _, [] => []
  | s, line :: rest =>
    visitedPieces c { s with hasContent := true } (piecesOf c s line) ++
      match visitLine c s line with
      | .ok next => visitedLines c next rest
      | .error _ => []

/-- The classified pieces of a source that are visited. -/
def visited (c : Conversion) (source : Text) : List Classified :=
  visitedLines c State.initial (Text.lines source)

section Pieces

variable {c : Conversion} {s : State} {piece : Text} {fails : Fault → Prop} {post : State → Prop}

/-- Inside a skipped scope a piece changes the stack of scopes and the wait for a brace at most. -/
theorem meets_skipPiece (hskip : Scope.skipped ∈ s.scopes)
    (hstay : ∀ awaiting, post { s with awaitingBrace := awaiting }) (hpush : post (s.push .skipped))
    (hpop : ∀ scope rest, s.scopes = scope :: rest → post { s with scopes := rest }) :
    Meets fails post (skipPiece s piece) := by
  simp only [skipPiece]
  refine .ite (fun _ => .ok (hstay false)) fun _ => .ite (fun _ => .ok hpush) fun _ =>
    .either ?_ (.ok (hstay s.awaitingBrace))
  cases hscopes : s.scopes with
  | nil =>
    rw [hscopes] at hskip
    cases hskip
  | cons scope rest => exact .ok (hpop scope rest hscopes)

/-- A piece is skipped, or it is visited and its code is written. The wait for a brace may end
first. -/
theorem meets_visitPiece (hskip : Scope.skipped ∈ s.scopes → Meets fails post (skipPiece s piece))
    (hvisit : Scope.skipped ∉ s.scopes → ∀ awaiting,
    Meets fails (fun r => ∀ depth, post (r.1.emit c depth r.2))
      (visit c { s with awaitingBrace := awaiting } (classify c.grammar piece))) :
    Meets fails post (visitPiece c s piece) := by
  simp only [visitPiece]
  refine .ite (fun h => hskip (by simpa using h)) fun h => ?_
  have hvisit := hvisit (by simpa using h)
  split
  · exact (hvisit s.awaitingBrace).bind fun r hr => .ok (hr _)
  · exact (hvisit false).bind fun r hr => .ok (hr _)

/-- What every piece keeps is kept by the pieces of a line. -/
theorem meets_visitPieces (hpiece : ∀ s piece, post s → Meets fails post (visitPiece c s piece))
    (hs : post s) (pieces : List Text) : Meets fails post (visitPieces c s pieces) := by
  induction pieces generalizing s with
  | nil => exact .ok hs
  | cons piece pieces ih =>
    simp only [visitPieces]
    exact .either (ih hs) ((hpiece s _ hs).bind fun t ht => ih ht)

end Pieces

/-- A line of code is visited piece by piece. Another line changes no stack. -/
theorem visitStripped_cases (c : Conversion) (s : State) (code : Text) :
    (code.isEmpty || s.inComment || includes code "/*" || (lineComment? c code).isSome) = true ∧
      (∃ next, visitStripped c s code = .ok next ∧ next.Agrees s) ∨
    (code.isEmpty || s.inComment || includes code "/*" || (lineComment? c code).isSome) = false ∧
      visitStripped c s code = visitPieces c { s with hasContent := true } (Block.split code) := by
  simp only [visitStripped]
  by_cases hempty : code.isEmpty = true
  · exact .inl ⟨by simp [hempty], _, if_pos hempty, rfl, rfl, rfl⟩
  · rw [if_neg hempty]
    by_cases hcomment : (s.inComment || includes code "/*") = true
    · refine .inl ⟨?_, _, if_pos hcomment, rfl, rfl, rfl⟩
      rw [Bool.or_assoc code.isEmpty, hcomment, Bool.or_true, Bool.true_or]
    · rw [if_neg hcomment]
      have hcode : (code.isEmpty || s.inComment || includes code "/*") = false := by
        rw [Bool.or_assoc, eq_false_iff.mpr hempty, eq_false_iff.mpr hcomment]
        rfl
      cases hline : lineComment? c code with
      | some comment => exact .inl ⟨by simp, _, rfl, rfl, rfl, rfl⟩
      | none => exact .inr ⟨by rw [hcode]; rfl, rfl⟩

/-- Visiting a line visits its pieces. -/
theorem visitLine_cases (c : Conversion) (s : State) (line : Text) :
    (piecesOf c s line = [] ∧ ∃ next, visitLine c s line = .ok next ∧ next.Agrees s) ∨
      visitLine c s line = visitPieces c { s with hasContent := true } (piecesOf c s line) := by
  have hstripped : ∀ code, visitLine c s line = visitStripped c s code → codeOf c line = code →
      (piecesOf c s line = [] ∧ ∃ next, visitLine c s line = .ok next ∧ next.Agrees s) ∨
        visitLine c s line = visitPieces c { s with hasContent := true } (piecesOf c s line) := by
    rintro code hvisit rfl
    rw [hvisit]
    rcases visitStripped_cases c s (codeOf c line) with ⟨hpassed, hnext⟩ | ⟨hcode, hnext⟩
    · exact .inl ⟨if_pos hpassed, hnext⟩
    · refine .inr (hnext.trans ?_)
      rw [piecesOf, if_neg (by rw [hcode]; decide)]
  by_cases hphp : c = .phpToPython
  · by_cases htag : (!(strip line).isEmpty && (withoutTags line).isEmpty) = true
    · have hnil : withoutTags line = [] := List.isEmpty_iff.mp (and_eq_true_iff.mp htag).2
      have hcode : (codeOf c line).isEmpty = true := by
        rw [codeOf, if_pos hphp, hnil]
        rfl
      refine .inl ⟨if_pos (by simp [hcode]), s, ?_, .rfl⟩
      rw [visitLine, if_pos hphp, if_pos htag]
      rfl
    · refine hstripped (strip (withoutTags line)) ?_ (if_pos hphp)
      rw [visitLine, if_pos hphp, if_neg htag]
  · refine hstripped (strip line) ?_ (if_neg hphp)
    rw [visitLine, if_neg hphp]

end CodeConverter.Brace

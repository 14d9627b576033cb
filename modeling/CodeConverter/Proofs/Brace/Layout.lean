import CodeConverter.Proofs.Block.Layout
import CodeConverter.Proofs.Brace.Move.ToBrace
import CodeConverter.Proofs.Brace.Visited

/-!
# The lines of a layout

Visiting the lines of a layout visits its pieces one after another, wherever the lines break: a line
only says that there is code, and nothing in it opens a comment.
-/

namespace CodeConverter.Brace

open Text Program
open List hiding dropPrefix?

variable {c : Conversion} {s t : State} {pieces : List Piece} {line : Text}

/-- The state has the marks of another: whether a block comment is open and whether there was
code. -/
def State.SameMarks (t s : State) : Prop :=
  t.inComment = s.inComment ∧ t.hasContent = s.hasContent

theorem Move.Leads.marks {m : Move} (h : m.Leads c s line t) :
    t.SameMarks s ∧ Trims s.output t.output := by
  cases m with
  | stay | literal | opens scope | enters scope name =>
      exact ⟨⟨h.inComment, h.hasContent⟩, h.output⟩
  | brace =>
    simp only [Move.Leads] at h
    split at h <;> exact ⟨⟨h.inComment, h.hasContent⟩, h.output⟩
  | closes =>
    obtain ⟨scope, u, hclose, hsame⟩ := h
    rcases closeBlock_cases hclose with ⟨-, -, rfl⟩ | ⟨first, rest, -, -, rfl⟩
    all_goals exact ⟨⟨hsame.inComment, hsame.hasContent⟩, hsame.output⟩

theorem meets_visit_marks (c : Conversion) (s : State) (piece : Text) :
    Yields (fun r => r.1.SameMarks s ∧ Trims s.output r.1.output)
    (visit c s (classify c.grammar piece)) := by
  have hindent := (ToIndent.meets_visit (.of_classify c s piece)).imp fun _ hleads => hleads.marks
  have hbrace := (ToBrace.meets_visit (.of_classify c s piece)).imp fun _ hleads => hleads.marks
  cases c
  case plain =>
    refine .ok ?_
    simp only [keepLine]
    split <;> exact ⟨⟨rfl, rfl⟩, .inl rfl⟩
  case toIndentation | javaToPython | javascriptToPython | phpToPython => exact hindent
  all_goals exact hbrace

theorem meets_visitPieces_marks (c : Conversion) (s : State) (pieces : List Text) :
    Yields (fun t => t.SameMarks s) (visitPieces c s pieces) := by
  refine meets_visitPieces (fun t piece ht => meets_visitPiece (fun hskip => ?_) fun _ awaiting =>
    ?_) ⟨rfl, rfl⟩ pieces
  · exact meets_skipPiece hskip (fun _ => ht) ht fun _ _ _ => ht
  · exact (meets_visit_marks c _ piece).imp fun r hr depth => ⟨hr.1.1.trans ht.1, hr.1.2.trans ht.2⟩

theorem visitPieces_append (c : Conversion) (s : State) (pieces more : List Text) :
    visitPieces c s (pieces ++ more) = visitPieces c s pieces >>= fun t =>
    visitPieces c t more := by
  induction pieces generalizing s with
  | nil => rfl
  | cons piece pieces ih =>
    simp only [cons_append, visitPieces, ih]
    split
    · rfl
    · rw [bind_assoc]

theorem not_mem_onLine (hline : OnLine pieces line)
    (hproper : ∀ piece ∈ pieces, Block.Proper piece) : '/' ∉ line := by
  have hblank : ∀ {gap : Text}, Blank gap → '/' ∉ gap := fun hgap hmem => by cases hgap _ hmem
  have hsolid : ∀ {text : Text}, Block.Solid text → '/' ∉ text :=
    fun h hmem => by cases h.passed _ hmem
  have hwritten : ∀ {piece : Piece} {text : Text}, Block.Proper piece → piece.Written text →
      '/' ∉ text := by
    intro piece text hpiece h
    cases h with
    | statement | header => exact hsolid hpiece
    | opened text hgap => simp [hsolid hpiece.1, hblank hgap]
    | opening => decide
    | closing => decide
  induction hline with
  | last hgap htrail h => simp [hblank hgap, hblank htrail, hwritten (hproper _ mem_cons_self) h]
  | next hgap h _ _ ih =>
    simp [hblank hgap, hwritten (hproper _ mem_cons_self) h,
      ih fun piece hmem => hproper piece (mem_cons_of_mem _ hmem)]

theorem includes_eq_false {d : Char} {rest t : Text} (h : d ∉ t) :
    includes t (d :: rest) = false := by
  induction t with
  | nil => rfl
  | cons e t ih =>
    rw [mem_cons, not_or] at h
    have hhead : (d == e) = false := by simpa using h.1
    rw [includes, ih h.2, Bool.or_false, isPrefixOf, hhead]
    rfl

/-- A line of a layout is visited piece by piece. -/
theorem visitLine_onLine (hc : c ≠ .phpToPython) (hline : OnLine pieces line)
    (hproper : ∀ piece ∈ pieces, Block.Proper piece) (hcomment : s.inComment = false) :
    visitLine c s line = visitPieces c { s with hasContent := true } (pieces.map Piece.text) := by
  have hslash : '/' ∉ strip line :=
    fun hmem => not_mem_onLine hline hproper ((strip_isInfix line).subset hmem)
  have hne : strip line ≠ [] := by
    obtain ⟨lead, body, trail, rfl, hlead, htrail, hbody, hstrip, -⟩ :=
      Block.exists_onLine_stripped hline hproper
    rw [strip_append hlead hstrip htrail]
    exact hbody
  have hmark : lineComment? c (strip line) = none := by
    have hmarks : c.style.sourceComments = ["//"] := by
      cases c <;> first | rfl | exact absurd rfl hc
    obtain ⟨first, rest, hfirst⟩ := exists_cons_of_ne_nil hne
    have hother : '/' ≠ first := by
      rintro rfl
      exact hslash (hfirst ▸ mem_cons_self)
    rw [lineComment?, hmarks, hfirst]
    simp [dropPrefix?, hother]
  have hopens : includes (strip line) "/*" = false := includes_eq_false hslash
  rw [visitLine, if_neg hc, visitStripped, if_neg (by simpa using hne)]
  simp only [hcomment, hopens, Bool.or_self, Bool.false_eq_true, if_false, hmark,
    Block.split_onLine hline hproper]

/-- Lines are visited piece by piece, however the pieces are laid out. -/
theorem foldlM_visitLine {ls : List Text} (hc : c ≠ .phpToPython) (hlines : OnLines pieces ls)
    (hproper : ∀ piece ∈ pieces, Block.Proper piece) (hcomment : s.inComment = false)
    (hcontent : s.hasContent = true) :
    ls.foldlM (visitLine c) s = visitPieces c s (pieces.map Piece.text) := by
  induction hlines generalizing s with
  | nil => rfl
  | @cons pieces more line ls hline _ ih =>
    have hsame : { s with hasContent := true } = s := by
      rw [← hcontent]
    rw [foldlM_cons,
      visitLine_onLine hc hline (fun piece hmem => hproper piece (mem_append_left _ hmem)) hcomment,
      hsame, map_append, visitPieces_append]
    have hmarks := meets_visitPieces_marks c s (pieces.map Piece.text)
    cases hvisit : visitPieces c s (pieces.map Piece.text) with
    | error fault => rfl
    | ok t =>
      rw [hvisit] at hmarks
      exact ih (fun piece hmem => hproper piece (mem_append_right _ hmem))
        (hmarks.of_ok.1.trans hcomment) (hmarks.of_ok.2.trans hcontent)

theorem run_layout {source : Text} (hc : c ≠ .phpToPython) (hlines : OnLines pieces (lines source))
    (hproper : ∀ piece ∈ pieces, Block.Proper piece) : (machine c).run (lines source) =
      visitPieces c { State.initial with hasContent := true } (pieces.map Piece.text) := by
  obtain ⟨first, rest, hsource, -⟩ := splitOn_eq_cons '\n' source
  have hcons : lines source = first :: rest := hsource
  rw [hcons] at hlines ⊢
  rw [← foldlM_visitLine hc hlines hproper rfl rfl]
  -- The first line says that there is code, in whatever state it is read.
  cases hlines with
  | cons hline _ =>
    have hfirst := fun piece hmem => hproper piece (mem_append_left _ hmem)
    show (foldlM (visitLine c) State.initial (first :: rest)) = _
    rw [foldlM_cons, foldlM_cons, visitLine_onLine (s := .initial) hc hline hfirst rfl,
      visitLine_onLine (s := { State.initial with hasContent := true }) hc hline hfirst rfl]

/-- A piece outside skipped scopes, no brace awaited, is visited and written at the smaller of the
depths before and after it. -/
theorem visitPiece_settled {code : Code} (hskipped : s.scopes.contains .skipped = false)
    (hawaiting : s.awaitingBrace = false)
    (hvisit : visit c s (classify c.grammar line) = .ok (t, code)) :
    visitPiece c s line = .ok (t.emit c (min (s.depth c) (t.depth c)) code) := by
  have hsame : { s with awaitingBrace := false } = s := by
    rw [← hawaiting]
  simp only [visitPiece, hskipped, Bool.false_eq_true, if_false, hsame, ite_self, hvisit]
  rfl

theorem visitPiece_opening (hskipped : s.scopes.contains .skipped = false)
    (hkind : (classify c.grammar "\x7b").kind = .openBrace)
    (hvisit : visit c s (classify c.grammar "\x7b") = .ok (t, .nothing)) :
    visitPiece c s "\x7b" = .ok t := by
  simp only [visitPiece, hskipped, Bool.false_eq_true, if_false, hkind, if_true, hvisit]
  rfl

theorem awaits_bare (h : '{' ∉ line) : endsWith (stripEnd line) "\x7b" = false := by
  refine Bool.eq_false_iff.mpr fun hends => ?_
  have hsuffix := (isSuffixOf_iff_suffix.mp hends).subset (a := '{') (by simp)
  exact h ((stripEnd_isPrefix line).subset hsuffix)

theorem awaits_brace (line : Text) : endsWith (stripEnd (line ++ " \x7b")) "\x7b" = true := by
  have hstrip : stripEnd (line ++ " \x7b") = line ++ " \x7b" := by
    show ((line ++ " \x7b").reverse.dropWhile isBlank).reverse = _
    rw [reverse_append]
    show ('{' :: (' ' :: line.reverse)).reverse = _
    simp
  rw [hstrip]
  exact isSuffixOf_iff_suffix.mpr ⟨line ++ [' '], by simp⟩

/-- Visiting the pieces in a state of one kind writes the lines and leads to a state of another
kind. -/
def Writes (c : Conversion) (start stop : List Text → State → Prop) (pieces : List Piece)
    (ls : List Text) : Prop :=
  ∀ out s, start out s → ∃ t, visitPieces c s (pieces.map Piece.text) = .ok t ∧ stop (out ++ ls) t

namespace Writes

variable {start mid stop : List Text → State → Prop} {pieces more : List Piece} {ls ms : List Text}

theorem nil : Writes c start start [] [] := by
  intro out s hs
  refine ⟨s, rfl, ?_⟩
  rwa [append_nil]

/-- Pieces are written one after another. -/
theorem append (h : Writes c start mid pieces ls) (h' : Writes c mid stop more ms) :
    Writes c start stop (pieces ++ more) (ls ++ ms) := by
  intro out s hs
  obtain ⟨t, ht, hmid⟩ := h out s hs
  obtain ⟨u, hu, hstop⟩ := h' _ t hmid
  refine ⟨u, ?_, ?_⟩
  · rw [map_append, visitPieces_append, ht]
    exact hu
  · rwa [← append_assoc]

theorem single {piece : Piece} (hc : c ≠ .phpToPython) (hne : piece.text ≠ [])
    (h : ∀ out s, start out s → ∃ t, visitPiece c s piece.text = .ok t ∧ stop (out ++ ls) t) :
    Writes c start stop [piece] ls := by
  intro out s hs
  obtain ⟨t, ht, hstop⟩ := h out s hs
  refine ⟨t, ?_, hstop⟩
  have hprepare : prepare c piece.text = piece.text := if_neg hc
  show visitPieces c s [piece.text] = _
  rw [visitPieces, hprepare, if_neg (by simpa using hne), ht]
  rfl

end Writes

end CodeConverter.Brace

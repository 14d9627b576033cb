import CodeConverter.Proofs.Block.Piece
import CodeConverter.Proofs.Brace.Stack
import CodeConverter.Proofs.Brace.Visited

/-!
# Brace sources are converted

A conversion fails only at a line that it rejects: a class header whose list of bases is blank, or a
formatted print whose arguments are blank.
-/

namespace CodeConverter.Brace

open Text Literal List

/-- A piece whose literals and numbers stay within the limits. -/
structure Visitable (t : Text) : Prop where
  null : '\x00' ∉ t
  line : '\n' ∉ t
  fit : NumeralsFit t
  room : t.countP isQuote + 2 * t.count '{' + 2 * t.count ':' ≤ capacity

variable {t piece line : Text} {l : Classified} {fault : Fault} {pieces lines : List Text}

theorem Visitable.moderate (h : Visitable t) : Moderate t :=
  ⟨h.null, by have := h.room; omega⟩

theorem countP_keyed (t : Text) : (keyed t).countP isQuote ≤ t.countP isQuote + 2 * t.count ':' :=
  countP_enclose_le rfl rfl t

theorem Visitable.moderate_keyed (h : Visitable t) : Moderate (keyed t) := by
  have hdrawn : Drawn "': " t (keyed t) := drawn_replaceBy fun m hof =>
    Drawn.enclose (.of_isInfix (hof.group_isInfix 1)) (by decide) (by decide)
  refine ⟨fun hmem => ?_, ?_⟩
  · exact (hdrawn.mem hmem).elim h.null (by decide)
  · have := hdrawn.count_le (c := '{') (by decide)
    have := countP_keyed t
    have := h.room
    omega

/-- The lines at which a conversion fails, and how. -/
inductive Rejects : Conversion → Classified → Fault → Prop
  /-- A class header lists its bases, but the list is blank. -/
  | bases {l : Classified} : l.kind = .classHeader → l.group 2 ≠ [] →
      (∀ c ∈ l.group 2, isBlank c = true) → Rejects .csharpToJavaScript l .emptyBaseList
  /-- The respelled arguments of a formatted print are blank, but not empty. -/
  | format {l : Classified} {arguments : Text} : l.kind = .printLine → l.group 1 = "printf" →
      Expression.ToPython.ofJava (l.group 2) = .ok arguments → arguments ≠ [] →
      (∀ c ∈ arguments, isBlank c = true) → Rejects .javaToPython l .missingFormat

theorem Rejects.visit_eq {c : Conversion} (h : Rejects c l fault) (s : State) :
    visit c s l = .error fault := by
  cases h with
  | bases hkind hsome hblank =>
    have hbase : ToBrace.csharpBase (l.group 2) = .error .emptyBaseList := by
      rw [ToBrace.csharpBase, if_neg (by simpa using hsome), splitArguments_eq_nil_iff.mpr hblank]
    simp only [visit, ToBrace.visit, hkind, ToBrace.visitClass, hbase]
    rfl
  | format hkind hprintf hexpression hsome hblank =>
    have hprintln : ("printf" : Text) ≠ "println" := by decide
    simp only [visit, ToIndent.visit, hkind, ToIndent.printLine, ToIndent.javaPrint,
      hprintf, hprintln,
      Conversion.expression, hexpression, if_false, if_true, bind, Except.bind,
      List.isEmpty_iff, hsome, ToIndent.formatArguments, splitArguments_eq_nil_iff.mpr hblank]

variable {c : Conversion} {s : State}

/-- What has to be known to follow the visit of a visitable piece. -/
theorem Inv.ready (h : Inv c s) (hpiece : Visitable piece) :
    Ready c (Rejects c (classify c.grammar piece)) Moderate s (classify c.grammar piece) where
  expression := fun _ ht => c.meets_expression ht
  lighter := fun _ _ ht hu => ht.lighter hu
  line := by
    rw [classify_line]
    exact hpiece.moderate
  keyed := by
    rw [classify_line]
    exact hpiece.moderate_keyed
  groups := fun k => by
    rw [classify_line]
    exact classify_group_isInfix _ _ k
  range := fun m hm => by
    have hbound : (Loop.Header.ofMatch m).bound <:+: piece := by
      obtain ⟨p, hp⟩ := found_matchStart hm
      have hof := (Pattern.of_matchStart hp).1
      exact (hof.group_isInfix 4).trans hof.whole_isInfix
    exact meets_rangeArguments (fun hmem => hpiece.line (hbound.subset hmem))
      (hpiece.fit.part hbound)
  close := h.meets_closeBlock
  className := by
    rintro rfl hclass
    refine (meets_innermost ?_).imp fun _ _ => trivial
    intro hnil
    have hclasses := h.classes
    cases hscopes : s.scopes with
    | nil => simp [State.inClassBody, hscopes] at hclass
    | cons scope rest =>
      obtain rfl : scope = .classBody := by simpa [State.inClassBody, hscopes] using hclass
      rw [hnil, hscopes, countP_cons_of_pos rfl] at hclasses
      cases hclasses
  format := by
    rintro arguments rfl hkind hprintf hexpression hsome hblank
    exact .format hkind hprintf hexpression hsome (splitArguments_eq_nil_iff.mp hblank)
  base := by
    rintro rfl hkind hsome hblank
    exact .bases hkind hsome (splitArguments_eq_nil_iff.mp hblank)

/-- A visit keeps the invariant and fails only where it rejects the line. -/
theorem Inv.meets_visit (hc : c ≠ .toBraces) (h : Inv c s) (hskip : Scope.skipped ∉ s.scopes)
    (hpiece : Visitable piece) :
    Meets (Rejects c (classify c.grammar piece)) (fun r => Inv c r.1)
    (visit c s (classify c.grammar piece)) := by
  have hready := h.ready hpiece
  have hindent := (ToIndent.meets_visit hready).imp fun r hleads =>
    h.leads hskip (ToIndent.fits_move c s _) hleads
  have hbrace : c.remembersClasses = true → Meets _ _ _ := fun hremembers =>
    (ToBrace.meets_visit hready).imp fun r hleads =>
      h.leads hskip (ToBrace.fits_move hremembers s _) hleads
  cases c
  case toBraces => exact absurd rfl hc
  case plain =>
    refine .ok ?_
    simp only [keepLine]
    split
    · exact h.push hskip rfl rfl rfl
    · exact h
  case toIndentation => exact hindent
  case javaToPython => exact hindent
  case javascriptToPython => exact hindent
  case phpToPython => exact hindent
  all_goals exact hbrace rfl

/-- Passing over a piece in a skipped scope. -/
theorem Inv.exists_skipped (h : Inv c s) (hskip : Scope.skipped ∈ s.scopes) : ∃ n rest,
    s.scopes = .skipped :: (replicate n .skipped ++ rest) ∧ Scope.skipped ∉ rest := by
  obtain ⟨n, rest, hscopes, hrest⟩ := h.skipped
  cases n with
  | zero =>
    rw [hscopes] at hskip
    exact absurd hskip hrest
  | succ n => exact ⟨n, rest, hscopes, hrest⟩

theorem Inv.meets_skipPiece {fails : Fault → Prop} (h : Inv c s)
    (hskip : Scope.skipped ∈ s.scopes) : Meets fails (Inv c) (skipPiece s piece) := by
  have hcount : ∀ scopes : List Scope,
      (.skipped :: scopes).countP c.endsClass = scopes.countP c.endsClass :=
    fun _ => countP_cons_of_neg (by cases c <;> decide)
  obtain ⟨n, outer, hscopes, houter⟩ := h.exists_skipped hskip
  refine Brace.meets_skipPiece hskip (fun _ => ⟨h.classes, h.skipped⟩) ⟨?_, n + 2, outer,
    ?_, houter⟩
    fun scope rest hcons => ?_
  · exact h.classes.trans (hcount _).symm
  · exact congrArg (.skipped :: ·) hscopes
  · obtain ⟨rfl, rfl⟩ := cons.inj (hcons.symm.trans hscopes)
    refine ⟨?_, n, outer, rfl, houter⟩
    rw [← hcount, ← hscopes]
    exact h.classes

theorem Inv.meets_visitPiece (hc : c ≠ .toBraces) (h : Inv c s) (hpiece : Visitable piece) :
    Meets (fun fault => Scope.skipped ∉ s.scopes ∧
    Rejects c (classify c.grammar piece) fault) (Inv c) (visitPiece c s piece) := by
  refine Brace.meets_visitPiece (fun hskip => h.meets_skipPiece hskip) fun hskip awaiting => ?_
  have hbefore : Inv c { s with awaitingBrace := awaiting } := ⟨h.classes, h.skipped⟩
  exact (hbefore.meets_visit hc hskip hpiece).mono (fun _ hrejects => ⟨hskip, hrejects⟩)
    fun r hr _ => ⟨hr.classes, hr.skipped⟩

theorem Rejects.visitPiece_eq (hskip : Scope.skipped ∉ s.scopes)
    (h : Rejects c (classify c.grammar piece) fault) : visitPiece c s piece = .error fault := by
  rw [visitPiece, if_neg (by simpa using hskip)]
  simp only [h.visit_eq]
  rfl

/-- The pieces of a line are handled unless one of those visited is rejected. -/
theorem Inv.meets_visitPieces (hc : c ≠ .toBraces) (h : Inv c s)
    (hpieces : ∀ piece ∈ pieces, Visitable (prepare c piece)) :
    Meets (fun fault => ∃ l ∈ visitedPieces c s pieces, Rejects c l fault) (Inv c)
    (visitPieces c s pieces) := by
  induction pieces generalizing s with
  | nil => exact .ok h
  | cons piece pieces ih =>
    have hrest := fun piece hmem => hpieces piece (mem_cons_of_mem _ hmem)
    simp only [visitPieces, visitedPieces]
    by_cases hempty : (prepare c piece).isEmpty = true
    · simp only [hempty, if_true, pure_bind]
      exact ih h hrest
    · simp only [hempty, if_false, Bool.false_eq_true]
      refine .bind ((h.meets_visitPiece hc (hpieces piece mem_cons_self)).remember.mono ?_
        fun next hnext => hnext) fun next hnext => ?_
      · rintro fault ⟨hskip, hrejects⟩
        refine ⟨_, ?_, hrejects⟩
        rw [if_neg (by simpa using hskip)]
        exact mem_cons_self
      · refine (ih hnext.2 hrest).mono (fun fault hfault => ?_) fun _ hr => hr
        obtain ⟨l, hl, hrejects⟩ := hfault
        refine ⟨l, ?_, hrejects⟩
        rw [hnext.1]
        split
        · exact hl
        · exact mem_cons_of_mem _ hl

/-- A rejected line among those visited ends the conversion. -/
theorem Rejects.visitPieces_eq
    (hl : l ∈ visitedPieces c s pieces) (h : Rejects c l fault) :
    visitPieces c s pieces = .error fault := by
  induction pieces generalizing s with
  | nil => cases hl
  | cons piece pieces ih =>
    simp only [visitPieces]
    simp only [visitedPieces] at hl
    by_cases hempty : (prepare c piece).isEmpty = true
    · simp only [hempty, if_true, pure_bind] at hl ⊢
      exact ih hl
    · simp only [hempty, if_false, Bool.false_eq_true] at hl ⊢
      have hvisited :
          l ∈ (if s.scopes.contains .skipped then [] else [classify c.grammar (prepare c piece)]) ∨
          ∃ next, visitPiece c s (prepare c piece) = .ok next ∧
          l ∈ visitedPieces c next pieces := by
        cases hnext : visitPiece c s (prepare c piece) with
        | error _ =>
          rw [hnext] at hl
          exact .inl hl
        | ok next =>
          rw [hnext] at hl
          split at hl
          · exact .inr ⟨next, rfl, hl⟩
          · rename_i hskip
            rw [if_neg hskip, mem_singleton]
            exact (mem_cons.mp hl).imp_right fun hl => ⟨next, rfl, hl⟩
      rcases hvisited with hfirst | ⟨next, hnext, hlater⟩
      · split at hfirst
        · cases hfirst
        · rename_i hskip
          obtain rfl := mem_singleton.mp hfirst
          rw [Rejects.visitPiece_eq (by simpa using hskip) h]
          rfl
      · rw [hnext]
        exact ih hlater

/-- A line all of whose pieces stay within the limits. -/
def Tractable (c : Conversion) (line : Text) : Prop :=
  ∀ piece ∈ Block.split (codeOf c line), Visitable (prepare c piece)

theorem Tractable.visitable (h : Tractable c line) (s : State) :
    ∀ piece ∈ piecesOf c s line, Visitable (prepare c piece) := by
  intro piece hpiece
  simp only [piecesOf] at hpiece
  split at hpiece
  · cases hpiece
  · exact h piece hpiece

theorem Inv.meets_visitLine (hc : c ≠ .toBraces) (h : Inv c s) (hline : Tractable c line) :
    Meets (fun fault => ∃ l ∈ visitedPieces c { s with hasContent := true } (piecesOf c s line),
    Rejects c l fault) (Inv c) (visitLine c s line) := by
  rcases visitLine_cases c s line with ⟨-, next, hnext, hagrees⟩ | hpieces
  · rw [hnext]
    exact .ok (h.agrees hagrees)
  · rw [hpieces]
    have hcontent : Inv c { s with hasContent := true } := ⟨h.classes, h.skipped⟩
    exact hcontent.meets_visitPieces hc (hline.visitable s)

/-- The lines keep the invariant and fail only at a line that is rejected. -/
theorem Inv.meets_visitLines (hc : c ≠ .toBraces) (h : Inv c s)
    (hlines : ∀ line ∈ lines, Tractable c line) :
    Meets (fun fault => ∃ l ∈ visitedLines c s lines, Rejects c l fault) (Inv c)
    (lines.foldlM (visitLine c) s) := by
  induction lines generalizing s with
  | nil => exact .ok h
  | cons line lines ih =>
    rw [foldlM_cons]
    refine .bind ((h.meets_visitLine hc (hlines line mem_cons_self)).remember.mono ?_
      fun next hnext => hnext) fun next hnext => ?_
    · rintro fault ⟨l, hl, hrejects⟩
      exact ⟨l, mem_append_left _ hl, hrejects⟩
    · refine (ih hnext.2 fun line hmem => hlines line (mem_cons_of_mem _ hmem)).mono ?_
        fun _ hr => hr
      rintro fault ⟨l, hl, hrejects⟩
      refine ⟨l, mem_append_right _ ?_, hrejects⟩
      rw [hnext.1]
      exact hl

/-- A rejected line ends the run with its fault. -/
theorem Rejects.visitLines_eq (hl : l ∈ visitedLines c s lines) (h : Rejects c l fault) :
    lines.foldlM (visitLine c) s = .error fault := by
  induction lines generalizing s with
  | nil => cases hl
  | cons line lines ih =>
    rw [foldlM_cons]
    rcases mem_append.mp hl with hl | hl
    · rcases visitLine_cases c s line with ⟨hnone, -⟩ | hpieces
      · rw [hnone] at hl
        cases hl
      · rw [hpieces, h.visitPieces_eq hl]
        rfl
    · split at hl
      · rename_i next hnext
        rw [hnext]
        exact ih hl
      · cases hl

theorem convert_eq_error_iff {source : Text} (hc : c ≠ .toBraces)
    (hlines : ∀ line ∈ Text.lines source, Tractable c line) :
    (machine c).convert source = .error fault ↔ ∃ l ∈ visited c source, Rejects c l fault := by
  have hrun := (Inv.initial c).meets_visitLines hc hlines
  constructor
  · intro hfault
    have hconvert : Meets (fun fault => ∃ l ∈ visited c source, Rejects c l fault) (fun _ => True)
        ((machine c).convert source) :=
      LineMachine.meets_convert hrun fun s _ => .ok trivial
    rw [hfault] at hconvert
    exact hconvert.of_error
  · rintro ⟨l, hl, hrejects⟩
    have herror : (machine c).run (Text.lines source) = .error fault := hrejects.visitLines_eq hl
    rw [LineMachine.convert, herror]
    rfl

end CodeConverter.Brace

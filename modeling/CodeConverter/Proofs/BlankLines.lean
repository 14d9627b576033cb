import CodeConverter.Proofs.Brace.Layout
import CodeConverter.Proofs.Indent.Nesting
import CodeConverter.Proofs.Registry

/-!
# Blank lines survive

Every line of white space is written as an empty line, and no empty line is ever taken back: the
lines that a conversion removes from its output are closing braces, and the lines that it changes
stay nonempty. A source without code gives nothing but its blank lines.
-/

namespace CodeConverter

open Text List Bool Converter

namespace Text

/-- The number of lines of white space only. -/
def blankLines (t : Text) : Nat :=
  (lines t).countP fun line => (strip line).isEmpty

/-- The number of empty lines. -/
def emptyLines (t : Text) : Nat :=
  (lines t).count []

theorem lines_append (t u : Text) : lines (t ++ '\n' :: u) = lines t ++ lines u :=
  splitOn_append '\n' t u

theorem lines_unlines {pieces : List Text} (hne : pieces ≠ []) :
    lines (unlines pieces) = pieces.flatMap lines := by
  induction pieces with
  | nil => exact absurd rfl hne
  | cons piece pieces ih =>
    cases pieces with
    | nil => simp [unlines, join_singleton]
    | cons next pieces =>
      have hjoin :
          unlines (piece :: next :: pieces) = piece ++ '\n' :: unlines (next :: pieces) := by
        simp [unlines, join_cons_cons]
      rw [hjoin, lines_append, ih (cons_ne_nil _ _)]
      exact flatMap_cons.symm

/-- Pieces that are empty are empty lines. -/
theorem count_le_emptyLines (pieces : List Text) :
    pieces.count [] ≤ (unlines pieces).emptyLines := by
  by_cases hne : pieces = []
  · rw [hne]
    exact Nat.zero_le _
  · rw [emptyLines, lines_unlines hne]
    clear hne
    induction pieces with
    | nil => exact Nat.le_refl _
    | cons piece pieces ih =>
      rw [flatMap_cons, count_append, count_cons]
      by_cases hnil : piece = []
      · subst hnil
        have hone : (lines []).count [] = 1 := rfl
        rw [hone]
        simpa [Nat.add_comm] using ih
      · have hother : (piece == []) = false := by simpa using hnil
        rw [hother]
        exact Nat.le_trans ih (Nat.le_add_left _ _)

theorem emptyLines_le_blankLines (t : Text) : t.emptyLines ≤ t.blankLines := by
  unfold emptyLines blankLines count
  refine countP_mono_left fun line _ hline => ?_
  rw [beq_iff_eq.mp hline]
  rfl

theorem lines_length_pos (t : Text) : 0 < (lines t).length := by
  obtain ⟨piece, pieces, heq, -, -⟩ := splitOn_eq_cons '\n' t
  rw [lines, heq]
  exact Nat.succ_pos _

theorem lines_unlines_replicate {n : Nat} (hn : 0 < n) :
    lines (unlines (replicate n [])) = replicate n [] := by
  have hflat : ∀ k : Nat, (replicate k []).flatMap lines = replicate k [] := by
    intro k
    induction k with
    | zero => rfl
    | succ k ih =>
      rw [replicate_succ, flatMap_cons, ih]
      rfl
  rw [lines_unlines (by simpa using Nat.ne_of_gt hn), hflat]

end Text

/-- The number of empty lines in an output. -/
def empties (output : Array Text) : Nat :=
  output.toList.count []

theorem empties_append (output added : Array Text) :
    empties (output ++ added) = empties output + empties added := by
  rw [empties, Array.toList_append, count_append]
  rfl

theorem empties_push_nil (output : Array Text) : empties (output.push []) = empties output + 1 := by
  rw [empties, Array.toList_push, count_append]
  rfl

variable {line source : Text} {chain : List Converter} {c : Converter}

theorem empties_push_of_ne (h : line ≠ []) (output : Array Text) :
    empties (output.push line) = empties output := by
  rw [empties, Array.toList_push, count_append, count_singleton, beq_false_of_ne h]
  rfl

theorem empties_le_push (output : Array Text) (line : Text) :
    empties output ≤ empties (output.push line) := by
  rw [empties, empties, Array.toList_push, count_append]
  exact Nat.le_add_right _ _

theorem empties_le_emit (size depth : Nat) (code : Code) (output : Array Text) :
    empties output ≤ empties (CodeConverter.emit size depth code output) := by
  unfold CodeConverter.emit
  split
  · exact Nat.le_refl _
  · rw [empties_append]
    exact Nat.le_add_right _ _

theorem empties_push_brace (hstrip : strip line = ['}']) (output : Array Text) :
    empties (output.push line) = empties output := by
  refine empties_push_of_ne ?_ output
  rintro rfl
  cases hstrip

namespace LineMachine

variable {σ : Type} {m : LineMachine σ}

/-- A machine that writes an empty line for every blank line and never takes one back keeps the
blank lines. -/
theorem meets_blankLines (inv : σ → Prop) (hinitial : inv m.initial)
    (hvisit : ∀ s line, inv s → Yields
      (fun t => inv t ∧ empties (m.output s) + (if (strip line).isEmpty then 1 else 0) ≤
      empties (m.output t)) (m.visit s line)) (hfinish : ∀ s, inv s →
      Yields (fun t => empties (m.output s) ≤ empties (m.output t)) (m.finish s)) (source : Text) :
    Yields (fun out => source.blankLines ≤ out.emptyLines) (m.convert source) := by
  have hrun : ∀ (lines : List Text) s, inv s → Yields
      (fun t => inv t ∧ empties (m.output s) + lines.countP (fun line => (strip line).isEmpty) ≤
      empties (m.output t)) (lines.foldlM m.visit s) := by
    intro lines
    induction lines with
    | nil => exact fun s hs => .ok ⟨hs, Nat.le_refl _⟩
    | cons line lines ih =>
      intro s hs
      rw [foldlM_cons]
      refine (hvisit s line hs).bind fun t ⟨ht, hline⟩ =>
        (ih t ht).imp fun u ⟨hu, hlines⟩ => ⟨hu, ?_⟩
      rw [countP_cons]
      omega
  refine meets_convert (hrun (lines source) m.initial hinitial) fun s ⟨hs, hlines⟩ => ?_
  refine (hfinish s hs).imp fun last hlast => Nat.le_trans ?_ (count_le_emptyLines _)
  have hblank : source.blankLines ≤ empties (m.output s) :=
    Nat.le_trans (Nat.le_add_left _ _) hlines
  exact Nat.le_trans hblank hlast

/-- A machine that only ever adds an empty line to what it has `written` turns blank lines into as
many empty ones. -/
theorem convert_of_blank (written : Array Text → σ) (hinitial : m.initial = written #[])
    (hvisit : ∀ out line, strip line = [] →
    m.visit (written out) line = .ok (written (out.push [])))
    (hfinish : ∀ out, m.finish (written out) = .ok (written out))
    (houtput : ∀ out, m.output (written out) = out)
    (hblank : ∀ line ∈ lines source, strip line = []) :
    m.convert source = .ok (unlines (replicate (lines source).length [])) := by
  have hrun : ∀ (lines : List Text) out, (∀ line ∈ lines, strip line = []) →
      lines.foldlM m.visit (written out) =
      .ok (written (out ++ replicate lines.length ([] : Text))) := by
    intro lines
    induction lines with
    | nil => exact fun out _ => by simp only [length_nil, replicate_zero, Array.appendList_nil]; rfl
    | cons line lines ih =>
      intro out hlines
      rw [forall_mem_cons] at hlines
      rw [foldlM_cons, hvisit out line hlines.1]
      show lines.foldlM m.visit (written (out.push [])) = _
      rw [ih _ hlines.2, length_cons, replicate_succ, Array.appendList_cons]
  rw [convert, run, hinitial, hrun _ _ hblank]
  show (m.finish (written _) >>= _) = _
  rw [hfinish]
  show Except.ok (unlines (m.output (written _)).toList) = _
  rw [houtput, Array.toList_appendList, Array.toList_empty, nil_append]

end LineMachine

namespace Brace

variable (c : Conversion) (s : State)

theorem Trims.empties_eq {before after : Array Text} (h : Trims before after) :
    empties after = empties before := by
  rcases h with rfl | ⟨line, hstrip, rfl⟩
  · rfl
  · exact (empties_push_brace hstrip after).symm

theorem meets_visitPiece_empties (piece : Text) :
    Yields (fun t => empties s.output ≤ empties t.output) (visitPiece c s piece) := by
  refine meets_visitPiece (fun hskip => ?_) fun _ awaiting => ?_
  · exact meets_skipPiece hskip (fun _ => Nat.le_refl _) (Nat.le_refl _) fun _ _ _ => Nat.le_refl _
  · refine (meets_visit_marks c _ _).imp fun r hr depth => ?_
    exact Nat.le_trans (Nat.le_of_eq hr.2.empties_eq.symm) (empties_le_emit _ _ _ _)

theorem meets_visitPieces_empties (pieces : List Text) :
    Yields (fun t => empties s.output ≤ empties t.output) (visitPieces c s pieces) :=
  meets_visitPieces (fun t piece ht => (meets_visitPiece_empties c t piece).imp fun _ hu =>
    Nat.le_trans ht hu) (Nat.le_refl _) pieces

theorem meets_visitStripped_empties (line : Text) : Yields
    (fun t => empties s.output + (if line.isEmpty then 1 else 0) ≤ empties t.output)
    (visitStripped c s line) := by
  unfold visitStripped
  by_cases hblank : line.isEmpty = true
  · rw [if_pos hblank, if_pos hblank]
    exact .ok (Nat.le_of_eq (empties_push_nil _).symm)
  · rw [if_neg hblank, if_neg hblank]
    refine .either (.ok (empties_le_emit _ _ _ _)) ?_
    cases lineComment? c line with
    | some comment => exact .ok (empties_le_emit _ _ _ _)
    | none => exact meets_visitPieces_empties c { s with hasContent := true } _

theorem withoutTags_of_blank (h : strip line = []) : withoutTags line = [] := by
  rw [withoutTags, h]
  rfl

theorem meets_visitLine_empties (line : Text) : Yields
    (fun t => empties s.output + (if (strip line).isEmpty then 1 else 0) ≤ empties t.output)
    (visitLine c s line) := by
  unfold visitLine
  refine .either ?_ (meets_visitStripped_empties c s _)
  by_cases hblank : (strip line).isEmpty = true
  · rw [withoutTags_of_blank (isEmpty_iff.mp hblank), hblank]
    exact meets_visitStripped_empties c s []
  · rw [if_neg hblank]
    refine .either (.ok (Nat.le_refl _)) ?_
    exact (meets_visitStripped_empties c s _).imp fun t ht => Nat.le_trans (Nat.le_add_right _ _) ht

theorem empties_le_finish : empties s.output ≤ empties (finish c s).output := by
  unfold finish
  split
  · have hstub : empties s.output ≤
        empties (if s.hasMain then s else s.emit c c.style.baseDepth mainStub).output := by
      split
      · exact Nat.le_refl _
      · exact empties_le_emit _ _ _ _
    refine Nat.le_trans hstub ?_
    rw [empties_append, empties_append]
    omega
  · exact Nat.le_refl _

theorem meets_blankLines (source : Text) :
    Yields (fun out => source.blankLines ≤ out.emptyLines) ((machine c).convert source) :=
  LineMachine.meets_blankLines (fun _ => True) trivial
    (fun s line _ => (meets_visitLine_empties c s line).imp fun _ ht => ⟨trivial, ht⟩)
    (fun s _ => .ok (a := finish c s) (empties_le_finish c s)) source

theorem convert_of_blank (hblank : ∀ line ∈ lines source, strip line = []) :
    (machine c).convert source = .ok (unlines (replicate (lines source).length [])) := by
  refine LineMachine.convert_of_blank (fun out => { State.initial with output := out }) rfl
    (fun out line hline => ?_) (fun out => ?_) (fun _ => rfl) hblank
  · show visitLine c _ line = _
    unfold visitLine
    rw [withoutTags_of_blank hline, hline]
    split <;> rfl
  · show Except.ok (finish c _) = _
    unfold finish
    show Except.ok (if (decide (c = .javascriptToJava) && false) = true then _ else _) = _
    rw [Bool.and_false]
    rfl

end Brace

namespace Indent

variable {c : Conversion} {s t : State}

theorem Left.empties_le (h : Left s t) : empties s.output ≤ empties t.output := by
  rcases h.output with heq | ⟨index, line, hline, heq⟩
  · rw [heq]
  · rw [heq, empties, empties, Array.toList_setIfInBounds]
    obtain ⟨hindex, hentry⟩ := List.getElem?_eq_some_iff.mp ((Array.getElem?_toList).trans hline)
    by_cases hnil : line = []
    · have hsame : replaceFirst " Object " " void " line = s.output.toList[index] := by
        rw [hentry, hnil]
        rfl
      rw [hsame, set_getElem_self]
    · rw [count_set hindex, hentry, beq_false_of_ne hnil]
      simp

theorem empties_le_writeClosing (c : Conversion) (s : State) (scope : Scope) :
    empties s.output ≤ empties (s.writeClosing c scope).output := by
  unfold State.writeClosing
  split
  · exact Nat.le_refl _
  · exact empties_le_emit _ _ _ _

/-- The state that results has written no fewer empty lines. -/
abbrev KeepsEmpties (s : State) (x : Except Fault State) : Prop :=
  Yields (fun t => empties s.output ≤ empties t.output) x

theorem meets_pop_empties (c : Conversion) (s : State) : KeepsEmpties s (s.pop c) := by
  unfold State.pop
  cases s.scopes with
  | nil => exact .error trivial
  | cons scope scopes =>
    cases s.widths with
    | nil => exact .error trivial
    | cons width widths =>
      cases s.names with
      | nil => exact .error trivial
      | cons first names =>
        refine (meets_leave_left c _ scope).imp fun t ht => Nat.le_trans ?_ ht.empties_le
        exact empties_le_writeClosing c
          { s with widths := widths, scopes := scopes, names := names } scope

theorem meets_closeEmpty_empties (c : Conversion) (s : State) :
    KeepsEmpties s (s.closeEmpty c) := by
  unfold State.closeEmpty
  cases s.pendingScope with
  | none => exact .ok (Nat.le_refl _)
  | some scope =>
    refine (meets_leave_left c s scope).bind fun t ht => .ok ?_
    exact Nat.le_trans ht.empties_le (empties_le_writeClosing c t scope)

theorem meets_closeWider_empties (c : Conversion) (width fuel : Nat) (s : State) :
    KeepsEmpties s (s.closeWider c width fuel) :=
  meets_closeWider (fun t _ _ _ _ ht => (meets_pop_empties c t).imp fun _ hu => Nat.le_trans ht hu)
    width fuel (Nat.le_refl _)

theorem meets_closeAll_empties (c : Conversion) (fuel : Nat) (s : State) :
    KeepsEmpties s (s.closeAll c fuel) :=
  meets_closeAll (fun t _ _ _ _ ht => (meets_pop_empties c t).imp fun _ hu => Nat.le_trans ht hu)
    fuel (Nat.le_refl _)

theorem meets_settleBlocks_empties (c : Conversion) (s : State) (width : Nat) :
    KeepsEmpties s (settleBlocks c s width) := by
  unfold settleBlocks
  refine .either ?_ (meets_closeWider_empties c width s.widths.length { s with closed := 0 })
  refine (meets_true _).bind fun inner _ => ?_
  refine .either (meets_closeWider_empties c width _ ({ s with closed := 0 }.push width)) ?_
  refine (meets_closeEmpty_empties c _).bind fun t ht => ?_
  exact (meets_closeWider_empties c width _ t).imp fun u hu => Nat.le_trans ht hu

theorem empties_mergeContinuation (s : State) (text : Text) :
    empties (mergeContinuation s text).1.output = empties s.output := by
  unfold mergeContinuation
  split
  · rename_i hcond
    have hback : s.output.back?.map strip = some ['}'] :=
      of_decide_eq_true (and_eq_true_iff.mp hcond).2
    obtain ⟨line, hline, hstrip⟩ := Option.map_eq_some_iff.mp hback
    obtain ⟨front, hfront⟩ := Array.back?_eq_some_iff.mp hline
    show empties s.output.pop = _
    rw [hfront, Array.pop_push, empties_push_brace hstrip]
  · split <;> rfl

theorem empties_le_written (c : Conversion) (comment : Option Text) (l : Classified)
    (r : State × Code) : empties r.1.output ≤ empties (written c comment l r).output := by
  have hmerged : empties (merged l r).1.output = empties r.1.output := by
    unfold merged
    split
    · exact empties_mergeContinuation _ _
    · rfl
  rw [← hmerged]
  exact empties_le_emit _ _ _ _

theorem meets_writeComment_empties (c : Conversion) (s : State) (text : Text) :
    KeepsEmpties s (writeComment c s text) := by
  refine (meets_commentLine s text).bind fun r hr => .ok ?_
  obtain ⟨_, _, heq⟩ := hr
  rw [heq]
  exact empties_le_emit _ _ _ _

theorem Settling.meets_codeLine_empties (h : Settling c 0 s) (text : Text) :
    KeepsEmpties s (codeLine c s text) := by
  have hvisit := (discipline_all c).meets_visit (h.arrives (t := text) trivial fun _ _ => trivial)
  rw [codeLine_eq]
  refine .map (hvisit.imp fun r hr => ?_)
  have hsame : r.1.output = s.output := hr.frame.output
  rw [← hsame]
  exact empties_le_written _ _ _ _

/-- A line of the source writes an empty line if it is blank, and takes none away. -/
theorem Inv.meets_visitLine_empties (h : Inv c s) (line : Text) : Yields
    (fun t => empties s.output + (if (strip line).isEmpty then 1 else 0) ≤ empties t.output)
    (visitLine c s line) := by
  by_cases hblank : (strip line).isEmpty = true
  · rw [if_pos hblank]
    unfold visitLine
    refine .ite (fun _ => .ok ?_) fun hfalse => absurd hblank hfalse
    exact Nat.le_of_eq (empties_push_nil _).symm
  have hcontent := h.content
  rw [if_neg hblank, Nat.add_zero]
  rcases visitLine_cases c s line with ⟨hnil, -⟩ | ⟨-, heq⟩ | ⟨-, heq⟩ | ⟨-, heq⟩ | ⟨-, -, -,
    heq⟩ | ⟨-, -, -, heq⟩
  · exact absurd (isEmpty_iff.mpr hnil) hblank
  all_goals rw [heq]
  · exact meets_writeComment_empties c { s with hasContent := true } _
  · unfold continuationLine
    exact ((discipline_all c).expression _ _ trivial).bind fun _ _ => .ok (empties_le_emit _ _ _ _)
  · refine .ok ?_
    simp only [State.emit]
    exact empties_le_emit _ _ _ _
  · refine (meets_settleBlocks_empties c { s with hasContent := true } _).bind fun t ht => ?_
    exact (meets_writeComment_empties c t _).imp fun u hu => Nat.le_trans ht hu
  · refine ((hcontent.meets_settleBlocks _).and (meets_settleBlocks_empties c _ _)).bind
      fun t ⟨hsettling, ht⟩ => ?_
    exact (hsettling.meets_codeLine_empties _).imp fun u hu => Nat.le_trans ht hu

theorem meets_finish_empties (c : Conversion) (s : State) : KeepsEmpties s (finish c s) := by
  refine meets_finish (fun _ _ => meets_closeEmpty_empties c s) (fun _ => Nat.le_refl _)
    fun t ht => ?_
  refine (meets_closeAll_empties c _ t).imp fun u hu => ⟨Nat.le_trans ht hu, fun _ => ?_⟩
  rw [empties_append, empties_append]
  omega

theorem meets_blankLines (c : Conversion) (source : Text) :
    Yields (fun out => source.blankLines ≤ out.emptyLines) ((machine c).convert source) :=
  LineMachine.meets_blankLines (Inv c) (.initial c)
    (fun _ line hs =>
    (hs.meets_visitLine (discipline_all c) trivial).and (hs.meets_visitLine_empties line))
    (fun s _ => meets_finish_empties c s) source

theorem convert_of_blank (c : Conversion) (hblank : ∀ line ∈ lines source, strip line = []) :
    (machine c).convert source = .ok (unlines (replicate (lines source).length [])) := by
  refine LineMachine.convert_of_blank (fun out => { State.initial with output := out }) rfl
    (fun out line hline => ?_) (fun out => ?_) (fun _ => rfl) hblank
  · show visitLine c _ line = _
    unfold visitLine
    rw [hline]
    rfl
  · show finish c { State.initial with output := out } = _
    unfold finish
    -- Nothing is open, so nothing is closed, and nothing is announced.
    show (if (decide (c = .toPhp) && false) = true then _ else _) = _
    rw [Bool.and_false]
    rfl

end Indent

namespace Erasure

theorem empties_le_write {s t : State} (h : t.output = s.output) (indentation code : Text) :
    empties s.output ≤ empties (t.write indentation code).output := by
  rw [← h]
  unfold State.write
  split
  · exact Nat.le_refl _
  · exact empties_le_push _ _

theorem meets_enumLine_output (s : State) (t : Text) :
    Yields (fun r => r.1.output = s.output) (enumLine s t) := by
  unfold enumLine
  refine .either (.ok rfl) ?_
  exact (meets_true _).bind fun _ _ => .ok rfl

theorem meets_enumHeader_output (s : State) (l : Classified) :
    Yields (fun r => r.1.output = s.output) (enumHeader s l) := by
  unfold enumHeader
  refine (meets_true _).bind fun _ _ => ?_
  exact .either (.ok rfl) (.ok rfl)

theorem typeOnlyLine_output (s : State) (t : Text) : (typeOnlyLine s t).output = s.output := by
  unfold typeOnlyLine
  dsimp only
  split <;> rfl

theorem codeLine_output (s : State) (t : Text) : (codeLine s t).1.output = s.output := by
  have hstripped : ∀ u, (stripAnnotations s u).1.output = s.output := by
    intro u
    unfold stripAnnotations
    split
    · split <;> rfl
    · split <;> rfl
  unfold codeLine
  dsimp only
  split
  · exact hstripped _
  · exact hstripped _

/-- A line of the source writes an empty line if it is blank, and takes none away. -/
theorem meets_visitLine_empties (s : State) (line : Text) : Yields
    (fun t => empties s.output + (if (strip line).isEmpty then 1 else 0) ≤ empties t.output)
    (visitLine s line) := by
  unfold visitLine
  by_cases hblank : (strip line).isEmpty = true
  · rw [if_pos hblank]
    refine .ite (fun _ => .ok ?_) fun hfalse => absurd hblank hfalse
    exact Nat.le_of_eq (empties_push_nil _).symm
  rw [if_neg hblank]
  refine .ite (fun htrue => absurd htrue hblank) fun _ => ?_
  refine .either (.ok (Nat.le_refl _)) ?_
  refine .either (.ok (empties_le_push _ _)) ?_
  refine .either (.ok (empties_le_push _ _)) ?_
  refine .either ?_ ?_
  · exact (meets_enumLine_output _ _).bind fun r hr => .ok (empties_le_write (s := s) hr _ _)
  · dsimp only
    split
    · refine .ok (Nat.le_of_eq (congrArg empties ?_))
      exact (typeOnlyLine_output { s with hasContent := true } (strip line)).symm
    · exact (meets_enumHeader_output _ _).bind fun r hr => .ok (empties_le_write (s := s) hr _ _)
    · have hsame := codeLine_output { s with hasContent := true } (strip line)
      generalize codeLine { s with hasContent := true } (strip line) = r at hsame ⊢
      exact .ok (empties_le_write (s := s) hsame _ _)

theorem meets_blankLines (source : Text) :
    Yields (fun out => source.blankLines ≤ out.emptyLines) (machine.convert source) :=
  LineMachine.meets_blankLines (fun _ => True) trivial
    (fun s line _ => (meets_visitLine_empties s line).imp fun _ ht => ⟨trivial, ht⟩)
    (fun s _ => .ok (a := s) (Nat.le_refl _)) source

theorem convert_of_blank (hblank : ∀ line ∈ lines source, strip line = []) :
    machine.convert source = .ok (unlines (replicate (lines source).length [])) := by
  refine LineMachine.convert_of_blank (fun out => { State.initial with output := out }) rfl
    (fun out line hline => ?_) (fun _ => rfl) (fun _ => rfl) hblank
  show visitLine _ line = _
  unfold visitLine
  rw [hline]
  rfl

end Erasure

/-- The conversions named in the registry, which all have rules for lines. -/
def Converter.hasRules : Converter → Bool
  | .bare => false
  | _ => true

theorem Converter.meets_blankLines (h : c.hasRules = true) (source : Text) :
    Yields (fun out => source.blankLines ≤ out.emptyLines) (c.convert source) := by
  cases c with
  | bare => cases h
  | brace c => exact Brace.meets_blankLines c source
  | indent c => exact Indent.meets_blankLines c source
  | erasure => exact Erasure.meets_blankLines source

theorem Converter.convert_of_blank (h : c.hasRules = true)
    (hblank : ∀ line ∈ lines source, strip line = []) :
    c.convert source = .ok (unlines (replicate (lines source).length [])) := by
  cases c with
  | bare => cases h
  | brace c => exact Brace.convert_of_blank c hblank
  | indent c => exact Indent.convert_of_blank c hblank
  | erasure => exact Erasure.convert_of_blank hblank

theorem Converter.meets_blankLines_all (hrules : ∀ d ∈ c :: chain, d.hasRules = true)
    (source : Text) :
    Yields (fun out => source.blankLines ≤ out.emptyLines)
    (convertAll (c :: chain) source) := by
  induction chain generalizing c source with
  | nil =>
    rw [convertAll_singleton]
    exact meets_blankLines (hrules c (mem_singleton_self c)) source
  | cons next chain ih =>
    rw [forall_mem_cons] at hrules
    rw [convertAll, foldlM_cons]
    refine (meets_blankLines hrules.1 source).bind fun code hcode =>
      (ih hrules.2 code).imp fun out hout => ?_
    exact Nat.le_trans hcode (Nat.le_trans (emptyLines_le_blankLines code) hout)

/-- Blank lines are converted to empty ones. -/
theorem Converter.convertAll_of_blank
    (hrules : ∀ d ∈ c :: chain, d.hasRules = true)
    (hblank : ∀ line ∈ lines source, strip line = []) :
    convertAll (c :: chain) source =
    .ok (unlines (replicate (lines source).length [])) := by
  have hfirst := convert_of_blank (hrules c mem_cons_self) hblank
  induction chain generalizing c source with
  | nil => rw [convertAll_singleton, hfirst]
  | cons next chain ih =>
    rw [forall_mem_cons] at hrules
    rw [convertAll, foldlM_cons, hfirst]
    -- The next converter reads as many empty lines.
    have hlines := lines_unlines_replicate (lines_length_pos source)
    have hempty : ∀ line ∈ lines (unlines (replicate (lines source).length [])),
        strip line = [] := by
      rw [hlines]
      intro line hline
      rw [eq_of_mem_replicate hline]
      rfl
    have hrest :=
      ih hrules.2 hempty (convert_of_blank (hrules.2 next mem_cons_self) hempty)
    rw [hlines, length_replicate] at hrest
    exact hrest

namespace Registry

theorem hasRules_of_mem {e : Entry} (h : e ∈ entries) :
    ∃ c chain, e.chain = c :: chain ∧ ∀ d ∈ c :: chain, d.hasRules = true := by
  have hall : entries.all (fun e => !e.chain.isEmpty && e.chain.all hasRules) =
      true := by decide
  have hentry := all_eq_true.mp hall e h
  rw [and_eq_true, all_eq_true] at hentry
  cases hchain : e.chain with
  | nil =>
    rw [hchain] at hentry
    exact absurd hentry.1 (by decide)
  | cons c chain =>
    rw [hchain] at hentry
    exact ⟨c, chain, rfl, hentry.2⟩

/-- A registered conversion keeps the blank lines of its source, and adds nothing to a source
without code. -/
theorem convertCode_blankLines {target : Text} (h : isSupported source target = true)
    (code : Text) :
    (∀ out, convertCode code source target = .ok out → code.blankLines ≤ out.emptyLines) ∧
      ((∀ line ∈ lines code, strip line = []) →
        ∃ out, convertCode code source target = .ok out ∧
        lines out = replicate (lines code).length []) := by
  obtain ⟨e, he, -, -, hchain⟩ := exists_entry h
  obtain ⟨c, chain, hcons, hrules⟩ := hasRules_of_mem he
  have hconvert : convertCode code source target = convertAll (c :: chain) code := by
    rw [convertCode, hchain, hcons]
  rw [hconvert]
  refine ⟨fun out hout => ?_, fun hblank => ?_⟩
  · have hmeets := meets_blankLines_all hrules code
    rw [hout] at hmeets
    exact hmeets.of_ok
  · exact ⟨_, convertAll_of_blank hrules hblank,
      lines_unlines_replicate (lines_length_pos code)⟩

/-- Three blank lines through both converters from TypeScript to Python. -/
theorem convertCode_blankLines_chain :
    isSupported "typescript" "python" = true ∧ (∀ line ∈ lines "  \n\n\t", strip line = []) ∧
      ∃ out, convertCode "  \n\n\t" "typescript" "python" = .ok out ∧ lines out = [[], [], []] := by
  have hsupported : isSupported "typescript" "python" = true := by decide
  have hblank : ∀ line ∈ lines "  \n\n\t", strip line = [] := by decide
  exact ⟨hsupported, hblank, (convertCode_blankLines hsupported "  \n\n\t").2 hblank⟩

end Registry

end CodeConverter

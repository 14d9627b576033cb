import CodeConverter.Indent.Scan
import CodeConverter.Proofs.Meets

/-!
# The lines of an indented source

The ways a line is handled, stated once: a blank line, a line of an open block comment or of an
unfinished bracket, a comment, the start of a block comment, and code. The last two first settle
which blocks are open.
-/

namespace CodeConverter.Indent

open Text Bool

/-- Writes a line of a block comment. -/
def writeComment (c : Conversion) (s : State) (t : Text) : Except Fault State := do
  let (s, text) ← commentLine s t
  return s.emit c s.depth (.line text)

/-- The state and the code of a line that continues the block just closed, if it does. -/
def merged (l : Classified) (r : State × Code) : State × Code :=
  match isContinuation l.kind, r.2 with
  | true, .line t => ((mergeContinuation r.1 t).1, .line (mergeContinuation r.1 t).2)
  | _, code => (r.1, code)

/-- The code of a line with its comment. -/
def annotated (comment : Option Text) (code : Code) : Code :=
  match comment with
  | some (ch :: text) => annotate code ("// " ++ (ch :: text))
  | _ => code

/-- The state after a visited line is written. -/
def written (c : Conversion) (comment : Option Text) (l : Classified) (r : State × Code) : State :=
  (merged l r).1.emit c (merged l r).1.depth (annotated comment (merged l r).2)

/-- The line as it is classified, without its comment. -/
def classified (t : Text) : Classified :=
  classify Grammar.Python.all (splitComment t).1

/-- The state in which a line of code is visited. -/
def counted (s : State) (t : Text) : State :=
  { s with brackets := max (bracketBalance (splitComment t).1) 0 }

theorem codeLine_eq (c : Conversion) (s : State) (t : Text) :
    codeLine c s t = written c (splitComment t).2 (classified t) <$> visit c (counted s t)
    (classified t) := by
  simp only [codeLine, classified, counted]
  cases visit c { s with brackets := max (bracketBalance (splitComment t).1) 0 }
      (classify Grammar.Python.all (splitComment t).1) with
  | error fault => rfl
  | ok r =>
    obtain ⟨after, code⟩ := r
    show _ = Except.ok (written c _ _ (after, code))
    simp only [written, merged, annotated]
    cases isContinuation (classify Grammar.Python.all (splitComment t).1).kind <;>
      cases code <;> rfl

/-- Whether a line leaves the open blocks alone whatever its width is. -/
def isPassive (s : State) (line : Text) : Bool :=
  (strip line).isEmpty || s.inComment || decide (s.brackets > 0) || startsWith (strip line) "#"

/-- What a line does. -/
theorem visitLine_cases (c : Conversion) (s : State) (line : Text) :
    (strip line = [] ∧ visitLine c s line = pure { s with output := s.output.push [] }) ∨
    (s.inComment = true ∧
    visitLine c s line = writeComment c { s with hasContent := true } (strip line)) ∨
    (s.inComment = false ∧
    visitLine c s line = continuationLine c { s with hasContent := true } (strip line)) ∨
    (s.inComment = false ∧ visitLine c s line = pure ({ s with hasContent := true }.emit c s.depth
      (.line (stripEnd ("// " ++ strip ((strip line).drop 1)))))) ∨
    (s.inComment = false ∧ isPassive s line = false ∧ startsComment (strip line) = true ∧
    visitLine c s line =
      settleBlocks c { s with hasContent := true } (width line) >>= fun s =>
      writeComment c s (strip line)) ∨
    (s.inComment = false ∧ isPassive s line = false ∧ startsComment (strip line) = false ∧
    visitLine c s line =
      settleBlocks c { s with hasContent := true } (width line) >>= fun s =>
      codeLine c s (strip line)) := by
  by_cases hblank : (strip line).isEmpty = true
  · refine .inl ⟨List.isEmpty_iff.mp hblank, ?_⟩
    simp only [visitLine, if_pos hblank]
  refine .inr ?_
  by_cases hcomment : s.inComment = true
  · refine .inl ⟨hcomment, ?_⟩
    simp only [visitLine, if_neg hblank, if_pos hcomment]
    rfl
  have hfalse : s.inComment = false := by simpa using hcomment
  refine .inr ?_
  by_cases hbrackets : s.brackets > 0
  · refine .inl ⟨hfalse, ?_⟩
    simp only [visitLine, if_neg hblank, if_neg hcomment, if_pos hbrackets]
  refine .inr ?_
  by_cases hnote : startsWith (strip line) "#" = true
  · refine .inl ⟨hfalse, ?_⟩
    simp only [visitLine, if_neg hblank, if_neg hcomment, if_neg hbrackets, if_pos hnote]
    rfl
  refine .inr ?_
  have hactive : isPassive s line = false := by
    simp only [isPassive, eq_false_iff.mpr hblank, hfalse, decide_eq_false hbrackets,
      eq_false_iff.mpr hnote, Bool.or_false]
  by_cases hstarts : startsComment (strip line) = true
  · refine .inl ⟨hfalse, hactive, hstarts, ?_⟩
    simp only [visitLine, if_neg hblank, if_neg hcomment, if_neg hbrackets, if_neg hnote,
      if_pos hstarts]
    rfl
  · refine .inr ⟨hfalse, hactive, eq_false_iff.mpr hstarts, ?_⟩
    simp only [visitLine, if_neg hblank, if_neg hcomment, if_neg hbrackets, if_neg hnote,
      if_neg hstarts]

/-- A line of a block comment changes the open comment at most. -/
theorem meets_commentLine (s : State) (text : Text) : Yields
    (fun r => ∃ inComment delimiter,
    r.1 = { s with inComment := inComment, commentDelimiter := delimiter })
    (commentLine s text) := by
  unfold commentLine
  refine .either ?_ (.either (.ok ⟨_, _, rfl⟩) (.ok ⟨_, _, rfl⟩))
  split
  · exact .error trivial
  · exact .either (.either (.ok ⟨_, _, rfl⟩) (.ok ⟨_, _, rfl⟩)) (.ok ⟨_, _, rfl⟩)

section Closing

variable {c : Conversion} {s : State} {fails : Fault → Prop} {inv post : State → Prop}

section

variable (hpop : ∀ t inner next rest, t.widths = inner :: next :: rest → inv t →
    Meets fails inv (t.pop c))

include hpop

/-- What is kept when a block is closed is kept when several are. -/
theorem meets_closeWider (width fuel : Nat) (hs : inv s) :
    Meets fails inv (s.closeWider c width fuel) := by
  induction fuel generalizing s with
  | zero => exact .ok hs
  | succ fuel ih =>
    unfold State.closeWider
    split
    · rename_i inner next rest hwidths
      exact .either ((hpop s inner next rest hwidths hs).bind fun t ht => ih ht) (.ok hs)
    · exact .ok hs

theorem meets_closeAll (fuel : Nat) (hs : inv s) : Meets fails inv (s.closeAll c fuel) := by
  induction fuel generalizing s with
  | zero => exact .ok hs
  | succ fuel ih =>
    unfold State.closeAll
    split
    · rename_i inner next rest hwidths
      exact (hpop s inner next rest hwidths hs).bind fun t ht => ih ht
    · exact .ok hs

end

/-- At the end of the source the announced block is closed first, and then all others. -/
theorem meets_finish
    (hempty : ∀ scope, s.pendingScope = some scope → Meets fails inv (s.closeEmpty c))
    (hnone : s.pendingScope = none → inv s)
    (hclose : ∀ t, inv t → Meets fails (fun t => post t ∧
      (c = .toPhp → post { t with output := #["<?php".toList] ++ t.output ++ #["?>".toList] }))
      (t.closeAll c t.widths.length)) : Meets fails post (finish c s) := by
  have hend : ∀ t : State, inv t → Meets fails post (do
      let t ← t.closeAll c t.widths.length
      if c = .toPhp && t.hasContent then
        return { t with output := #["<?php".toList] ++ t.output ++ #["?>".toList] }
      return t : Except Fault State) := fun t ht =>
    (hclose t ht).bind fun u hu => .ite
      (fun hphp => .ok (hu.2 (of_decide_eq_true (and_eq_true_iff.mp hphp).1))) fun _ => .ok hu.1
  unfold finish
  refine .ite (fun hsome => ?_) fun h => hend s (hnone (by simpa using h))
  obtain ⟨scope, hscope⟩ := Option.isSome_iff_exists.mp hsome
  exact (hempty scope hscope).bind hend

end Closing

end CodeConverter.Indent

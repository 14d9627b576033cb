import CodeConverter.Proofs.Block.Piece
import CodeConverter.Proofs.Text.Balance

/-!
# Lines that are a single piece

A line without braces is one piece, and so is a line whose only brace ends it or stands before
closing punctuation. Quotes and comment marks make no difference: what they could hide is the last
brace, and that ends the line anyway.
-/

namespace CodeConverter.Block

open Text Literal List Bool

/-- Nothing was split off so far, and the text before the place is the current piece. -/
structure Progress.Fresh (before : Text) (p : Progress) : Prop where
  pieces : p.pieces = []
  current : p.current = before.reverse
  glued : p.glued = false

namespace Progress.Fresh

variable {before : Text} {p : Progress}

section

variable (h : p.Fresh before)

include h

theorem piece : p.piece = strip before := by
  rw [Progress.piece, h.current, reverse_reverse]

theorem finish (hne : strip before ≠ []) : p.finish = [strip before] := by
  rw [Progress.finish, h.piece, if_neg (by simpa using hne), h.pieces]

theorem push (c : Char) : (p.push c).Fresh (before ++ [c]) := by
  refine ⟨h.pieces, ?_, rfl⟩
  show c :: p.current = _
  rw [h.current, reverse_append]
  rfl

theorem quoted (quote c : Char) : (p.quoted quote c).Fresh (before ++ [c]) := by
  have hpush := h.push c
  unfold Progress.quoted
  split
  · exact ⟨hpush.pieces, hpush.current, hpush.glued⟩
  · split
    · exact ⟨hpush.pieces, hpush.current, hpush.glued⟩
    · split
      · exact ⟨hpush.pieces, hpush.current, hpush.glued⟩
      · exact hpush

theorem code {c : Char} (hc : isBrace c = false) : (p.code c).Fresh (before ++ [c]) := by
  have hpush := h.push c
  simp only [isBrace, or_eq_false_iff, decide_eq_false_iff_not] at hc
  unfold Progress.code
  rw [h.glued, Bool.false_and, if_neg Bool.false_ne_true, if_neg hc.1, if_neg hc.2]
  split
  · exact ⟨hpush.pieces, hpush.current, hpush.glued⟩
  · exact hpush

/-- Text without braces is passed over, unless it is cut short by a comment: then nothing is split
off any more. -/
theorem splitFrom {t : Text} (ht : ∀ c ∈ t, isBrace c = false) (rest : Text)
    (hne : strip (before ++ (t ++ rest)) ≠ []) :
    Block.splitFrom p (t ++ rest) = [strip (before ++ (t ++ rest))] ∨
      ∃ q : Progress, q.Fresh (before ++ t) ∧
      Block.splitFrom p (t ++ rest) = Block.splitFrom q rest := by
  induction t generalizing before p with
  | nil => exact .inr ⟨p, by rwa [append_nil], rfl⟩
  | cons c t ih =>
    have hrest := fun d hd => ht d (mem_cons_of_mem c hd)
    have hmove : before ++ (c :: t ++ rest) = before ++ [c] ++ (t ++ rest) := by simp
    have hafter : before ++ c :: t = before ++ [c] ++ t := by simp
    rw [hmove] at hne ⊢
    rw [hafter, cons_append, Block.splitFrom]
    cases p.quote with
    | some quote => exact ih (h.quoted quote c) hrest hne
    | none =>
      by_cases hcomment : (c = '/' && (t ++ rest).head? = some '/') = true
      · simp only [hcomment, if_true]
        have hwhole : Progress.Fresh (before ++ [c] ++ (t ++ rest))
            { p with current := (t ++ rest).reverse ++ c :: p.current, quote := none } :=
          ⟨h.pieces, by simp [h.current], h.glued⟩
        exact .inl (by rw [hwhole.finish hne]; rfl)
      · simp only [hcomment]
        exact ih (h.code (ht c mem_cons_self)) hrest hne

end

end Progress.Fresh

theorem fresh_nil : Progress.Fresh [] ⟨[], [], [], none, false, false⟩ := ⟨rfl, rfl, rfl⟩

variable {t head glue : Text}

theorem split_of_plain (hstrip : strip t = t) (hne : t ≠ []) (ht : ∀ c ∈ t, isBrace c = false) :
    split t = [t] := by
  have hwhole : strip ([] ++ (t ++ [])) = t := by rw [append_nil, nil_append, hstrip]
  have hsplit := fresh_nil.splitFrom ht [] (by rwa [hwhole])
  rw [hwhole, append_nil, nil_append] at hsplit
  rcases hsplit with hcomment | ⟨q, hq, hend⟩
  · exact hcomment
  · rw [split, hend]
    show q.finish.reverse = _
    rw [hq.finish (by rwa [hstrip]), hstrip]
    rfl

/-- A line whose only brace ends it is one piece; behind a header one blank stands before the
brace. -/
theorem split_of_opening (hstrip : strip (head ++ ['{']) = head ++ ['{'])
    (hhead : ∀ c ∈ head, isBrace c = false) : split (head ++ ['{']) = [head ++ ['{']] ∨
      isHeader (strip head) = true ∧ split (head ++ ['{']) = [strip head ++ " \x7b"] := by
  have hwhole : strip ([] ++ (head ++ ['{'])) = head ++ ['{'] := by rw [nil_append, hstrip]
  have hne : head ++ ['{'] ≠ [] := by simp
  have hsplit := fresh_nil.splitFrom hhead ['{'] (by rwa [hwhole])
  rw [hwhole, nil_append] at hsplit
  rcases hsplit with hcomment | ⟨q, hq, hend⟩
  · exact .inl hcomment
  -- The brace is quoted, or it ends a header, or it belongs to an object literal.
  · have hlast : ∀ p : Progress, p.Fresh (head ++ ['{']) → p.finish.reverse = [head ++ ['{']] := by
      intro p hp
      rw [hp.finish (by rwa [hstrip]), hstrip]
      rfl
    rw [split, hend, splitFrom]
    cases q.quote with
    | some quote => exact .inl (hlast _ (hq.quoted quote '{'))
    | none =>
      show (if _ then _ else splitFrom (q.code '{') []) = _ ∨ _ ∧
          (if _ then _ else splitFrom (q.code '{') []) = _
      rw [if_neg (by decide)]
      have hcode : q.code '{' = q.openBrace := by
        unfold Progress.code
        rw [hq.glued]
        rfl
      rw [hcode, Progress.openBrace]
      by_cases hheader : isHeader q.piece = true
      · refine .inr ⟨by rwa [hq.piece] at hheader, ?_⟩
        rw [if_pos hheader, hq.piece, hq.pieces]
        rfl
      · have hpush := hq.push '{'
        rw [if_neg hheader]
        exact .inl (hlast _ ⟨hpush.pieces, hpush.current, hpush.glued⟩)

/-- A closing brace and what is glued to it are one piece. -/
theorem split_of_closing (hglue : glue.all isGlue = true) :
    split ('}' :: glue) = ['}' :: glue] := by
  have hfrom : ∀ (p : Progress) (piece : Text), p.pieces = [piece] → p.current = [] →
      p.quote = none →
      p.glued = true → ∀ glue : Text, glue.all isGlue = true →
      splitFrom p glue = [piece ++ glue] := by
    intro p piece hpieces hcurrent hquote hglued glue hglue
    induction glue generalizing p piece with
    | nil =>
      rw [splitFrom, Progress.finish, Progress.piece, hcurrent, hpieces, append_nil]
      rfl
    | cons c glue ih =>
      rw [all_cons, and_eq_true] at hglue
      have hslash : c ≠ '/' := by
        rintro rfl
        cases hglue.1
      have hcode : p.code c = { p with pieces := [piece ++ [c]] } := by
        unfold Progress.code Progress.glue
        rw [hglued, hglue.1, hpieces]
        rfl
      rw [splitFrom, hquote]
      simp only [hslash, decide_false, Bool.false_and, false_eq_true, if_false, hcode]
      rw [ih { p with pieces := [piece ++ [c]] } (piece ++ [c]) rfl hcurrent hquote hglued hglue.2,
        append_assoc]
      rfl
  exact hfrom _ ['}'] rfl rfl rfl rfl glue hglue

end CodeConverter.Block

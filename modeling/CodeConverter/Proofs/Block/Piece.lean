import CodeConverter.Block
import CodeConverter.Proofs.Text.Drawn
import CodeConverter.Proofs.Text.Run

/-!
# The pieces of a line

Splitting a line at its block boundaries cuts it into parts and drops blanks between them. The only
piece that is not a part of the line is a header with its brace, where one blank stands for those
before the brace.
-/

namespace CodeConverter.Block

open Text Literal List Bool Progress

/-! ## Steps -/

/-- One more character is read: the current piece grows, or it ends with a header or at a closing
brace, or punctuation follows a closing brace. -/
inductive Progress.Step (p : Progress) (c : Char) : Progress → Prop
  | grow (braces : List Brace) (quote : Option Char) (escaped : Bool) :
      Step p c ⟨p.pieces, c :: p.current, braces, quote, escaped, false⟩
  | header (braces : List Brace) : c = '{' → isHeader p.piece = true →
      Step p c ⟨(p.piece ++ " \x7b") :: p.pieces, [], braces, p.quote, p.escaped, false⟩
  | close (braces : List Brace) :
      c = '}' → Step p c ⟨"\x7d" :: p.finish, [], braces, p.quote, p.escaped, true⟩
  | glue : p.glued = true → isGlue c = true → Step p c (p.glue c)

variable {u piece : Text} {p q : Progress} {c : Char}

/-- What holds of the three characters that may be glued to a brace holds of all that are. -/
theorem forall_glue {P : Char → Prop} (h : ∀ d ∈ [')', ';', ','], P d) {glue : Text}
    (hglue : glue.all isGlue = true) : ∀ d ∈ glue, P d := by
  intro d hd
  have hmark := all_eq_true.mp hglue d hd
  simp only [isGlue, or_eq_true, decide_eq_true_eq] at hmark
  rcases hmark with (rfl | rfl) | rfl <;> exact h _ (by decide)

theorem step_quoted (p : Progress) (quote c : Char) : p.Step c (p.quoted quote c) := by
  unfold quoted
  repeat' split
  all_goals exact .grow _ _ _

/-- A character of code is one step of the scan. -/
theorem step_code (p : Progress) (c : Char) : p.Step c (p.code c) := by
  unfold code openBrace closeBrace
  split
  · rename_i hglue
    exact .glue (and_eq_true_iff.mp hglue).1 (and_eq_true_iff.mp hglue).2
  split
  · exact .grow _ _ _
  split
  · rename_i hopen
    subst hopen
    split
    · rename_i hheader
      exact .header _ rfl hheader
    · exact .grow _ _ _
  split
  · rename_i hclose
    subst hclose
    split
    · exact .grow _ _ _
    · exact .close _ rfl
  · exact .grow _ _ _

/-- What every step preserves holds where the line ends. -/
theorem exists_last {Holds : Text → Progress → Prop}
    (hstep : ∀ {u p c q}, Holds u p → p.Step c q → Holds (u ++ [c]) q) (h : Holds u p) (t : Text) :
    ∃ last, Holds (u ++ t) last ∧ splitFrom p t = last.finish.reverse := by
  induction t generalizing u p with
  | nil => exact ⟨p, by rwa [append_nil], rfl⟩
  | cons c t ih =>
    rw [append_cons, splitFrom]
    split
    · exact ih (hstep h (step_quoted p _ c))
    · split
      · -- A comment mark: the rest of the line belongs to the current piece.
        have hgrow : ∀ (t : Text) (u : Text) (p : Progress), Holds u p →
            ∃ last, Holds (u ++ t) last ∧ last.pieces = p.pieces ∧
            last.current = t.reverse ++ p.current := by
          intro t
          induction t with
          | nil => exact fun u p h => ⟨p, by rwa [append_nil], rfl, rfl⟩
          | cons c t ih =>
            intro u p h
            obtain ⟨last, hlast, hpieces, hcurrent⟩ :=
              ih _ _ (hstep h (.grow (c := c) [] none false))
            exact ⟨last, by rwa [append_cons], hpieces, by simp [hcurrent]⟩
        obtain ⟨last, hlast, hpieces, hcurrent⟩ := hgrow (c :: t) u p h
        refine ⟨last, by rwa [← append_cons], ?_⟩
        simp only [finish, piece, hpieces, hcurrent]
        simp
      · exact ih (hstep h (step_code p c))

/-! ## Cuts -/

/-- The text is cut into the pieces, the latest first, and into blanks. -/
inductive Cut : Text → List Text → Prop
  | nil : Cut [] []
  | gap {u gap : Text} {pieces : List Text} : Cut u pieces → (∀ c ∈ gap, isBlank c = true) →
      Cut (u ++ gap) pieces
  | piece {u piece : Text} {pieces : List Text} : Cut u pieces → Tidy piece →
      Cut (u ++ piece) (piece :: pieces)
  | header {u head gap : Text} {pieces : List Text} : Cut u pieces → Tidy head →
      (∀ c ∈ gap, isBlank c = true) →
      Cut (u ++ (head ++ gap ++ ['{'])) ((head ++ [' ', '{']) :: pieces)

variable {pieces : List Text}

/-- The text that was read is cut into the finished pieces and the current one. While punctuation
may follow, the last piece ends where the text does. -/
structure Progress.Follows (u : Text) (p : Progress) : Prop where
  cut : ∃ done, u = done ++ p.current.reverse ∧ Cut done p.pieces
  glued : p.glued = true → p.current = [] ∧ ∃ done last pieces, u = done ++ last ∧
    p.pieces = last :: pieces ∧ Cut done pieces ∧ Tidy last

theorem Progress.Follows.finish (h : p.Follows u) : Cut u p.finish := by
  obtain ⟨done, rfl, hcut⟩ := h.cut
  obtain ⟨lead, gap, hparts, hlead, hgap⟩ := strip_parts p.current.reverse
  unfold finish
  split
  · rename_i hempty
    exact hcut.gap (strip_eq_nil_iff.mp (isEmpty_iff.mp hempty))
  · rename_i hne
    rw [hparts, ← append_assoc, ← append_assoc]
    exact ((hcut.gap hlead).piece ⟨fun hnil => hne (isEmpty_iff.mpr hnil),
      strip_eq_self_iff.mpr (strip_ends _)⟩).gap hgap

/-- One step keeps what the scan says of the text that it passed. -/
theorem Progress.Follows.step (h : p.Follows u) (hstep : p.Step c q) : q.Follows (u ++ [c]) := by
  obtain ⟨done, hu, hcut⟩ := h.cut
  cases hstep with
  | grow braces quote escaped => exact ⟨⟨done, by simp [hu], hcut⟩, fun hglued => by cases hglued⟩
  | header braces hc hheader =>
    subst hc
    obtain ⟨lead, gap, hparts, hlead, hgap⟩ := strip_parts p.current.reverse
    have hne : p.piece ≠ [] := by
      intro hnil
      rw [hnil] at hheader
      cases hheader
    have hhead : Tidy p.piece := ⟨hne, strip_eq_self_iff.mpr (strip_ends _)⟩
    have hopened := (hcut.gap hlead).header hhead hgap
    refine ⟨⟨u ++ ['{'], (append_nil _).symm, ?_⟩, fun hglued => by cases hglued⟩
    rw [hu, hparts]
    simpa [piece] using hopened
  | close braces hc =>
    subst hc
    have hbrace : Tidy ['}'] := ⟨cons_ne_nil _ _, rfl⟩
    exact ⟨⟨_, (append_nil _).symm, h.finish.piece hbrace⟩,
      fun _ => ⟨rfl, u, _, _, rfl, rfl, h.finish, hbrace⟩⟩
  | glue hglued hc =>
    obtain ⟨hcurrent, done, last, pieces, rfl, hpieces, hcut, htidy⟩ := h.glued hglued
    have hmark : Tidy [c] := by
      simp only [isGlue, or_eq_true, decide_eq_true_eq] at hc
      rcases hc with (rfl | rfl) | rfl <;> exact ⟨cons_ne_nil _ _, rfl⟩
    have hlast := htidy.append [] hmark
    have hglue : p.glue c = { p with pieces := (last ++ [c]) :: pieces } := by
      rw [glue, hpieces]
    rw [hglue, append_assoc]
    exact ⟨⟨_, by rw [hcurrent]; exact (append_nil _).symm, hcut.piece hlast⟩,
      fun _ => ⟨hcurrent, done, _, _, rfl, rfl, hcut, hlast⟩⟩

theorem follows_start : Follows [] ⟨[], [], [], none, false, false⟩ :=
  ⟨⟨[], rfl, .nil⟩, fun hglued => by cases hglued⟩

theorem cut_split (t : Text) : Cut t (split t).reverse := by
  obtain ⟨last, hlast, hsplit⟩ := exists_last Follows.step follows_start t
  rw [split, hsplit, reverse_reverse]
  exact hlast.finish

/-! ## Pieces -/

/-- A part of a text, or a part up to an opening brace with one blank before it. -/
def PieceOf (u piece : Text) : Prop :=
  piece <:+: u ∨ ∃ x gap, x ++ gap ++ ['{'] <:+: u ∧ piece = x ++ [' ', '{']

theorem PieceOf.append (h : PieceOf u piece) (t : Text) : PieceOf (u ++ t) piece := by
  have hlonger : u <:+: u ++ t := (prefix_append u t).isInfix
  rcases h with h | ⟨x, gap, h, heq⟩
  · exact .inl (h.trans hlonger)
  · exact .inr ⟨x, gap, h.trans hlonger, heq⟩

theorem PieceOf.drawn (h : PieceOf u piece) : Drawn [' '] u piece := by
  rcases h with h | ⟨x, gap, h, rfl⟩
  · exact .of_isInfix h
  · refine (Drawn.of_isInfix h).trans fun set hset => ?_
    have hblank : set ' ' = false := hset ' ' mem_cons_self
    simp only [countP_append, countP_cons, countP_nil, hblank, false_eq_true, if_false]
    omega

theorem Cut.pieceOf (h : Cut u pieces) : ∀ piece ∈ pieces, PieceOf u piece := by
  induction h with
  | nil => exact forall_mem_nil _
  | gap _ _ ih => exact fun piece hpiece => (ih piece hpiece).append _
  | piece _ _ ih =>
    exact forall_mem_cons.mpr ⟨.inl (suffix_append _ _).isInfix, fun piece hpiece =>
      (ih piece hpiece).append _⟩
  | @header _ head gap _ _ _ _ ih =>
    exact forall_mem_cons.mpr ⟨.inr ⟨head, gap, (suffix_append _ _).isInfix, rfl⟩,
      fun piece hpiece => (ih piece hpiece).append _⟩

theorem pieceOf_of_mem_split {t : Text} (h : piece ∈ split t) : PieceOf t piece :=
  (cut_split t).pieceOf piece (mem_reverse.mpr h)

end CodeConverter.Block

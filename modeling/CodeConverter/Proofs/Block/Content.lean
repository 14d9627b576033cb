import CodeConverter.Proofs.Block.Piece

/-!
# Splitting loses nothing

The pieces of a line have its characters in order, blanks aside. A string literal stays in one
piece, and a comment in the last one.
-/

namespace CodeConverter.Block

open Text Literal List Bool Progress

/-- A text without its blanks. -/
def solid (t : Text) : Text :=
  t.filter (!isBlank ·)

/-- The inside of a string literal. A backslash escapes the character behind it. -/
inductive Inside (quote : Char) : Text → Prop
  | nil : Inside quote []
  | plain {c : Char} {t : Text} : c ≠ quote → c ≠ '\\' → Inside quote t → Inside quote (c :: t)
  | escaped {c : Char} {t : Text} : Inside quote t → Inside quote ('\\' :: c :: t)

/-- A string literal with both its quotes. -/
def IsLiteral (t : Text) : Prop :=
  ∃ quote body, isQuote quote = true ∧ Inside quote body ∧ t = quote :: (body ++ [quote])

/-- Literals and code outside of them in front of a rest, where no comment starts. -/
inductive Passes (rest : Text) : Text → Prop
  | nil : Passes rest []
  | code {c : Char} {t : Text} : isQuote c = false → ¬ ['/', '/'] <+: c :: (t ++ rest) →
      Passes rest t → Passes rest (c :: t)
  | literal {lit t : Text} : IsLiteral lit → Passes rest t → Passes rest (lit ++ t)

variable {u a lit rest t piece : Text} {pieces : List Text} {p q : Progress} {c : Char}

/-! ## Characters -/

theorem solid_append (t u : Text) : solid (t ++ u) = solid t ++ solid u :=
  filter_append ..

theorem solid_of_blank (h : ∀ c ∈ t, isBlank c = true) : solid t = [] :=
  filter_eq_nil_iff.mpr fun c hc => by simp [h c hc]

theorem Cut.solid (h : Cut u pieces) : solid pieces.reverse.flatten = solid u := by
  induction h with
  | nil => rfl
  | gap _ hgap ih => rw [solid_append, ih, solid_of_blank hgap, append_nil]
  | piece _ _ ih => simp [solid_append, ih]
  | header _ _ hgap ih =>
    have hbrace : Block.solid [' ', '{'] = Block.solid ['{'] := rfl
    simp [solid_append, ih, solid_of_blank hgap, hbrace]

theorem Cut.tidy (h : Cut u pieces) : ∀ piece ∈ pieces, Tidy piece := by
  induction h with
  | nil => exact forall_mem_nil _
  | gap _ _ ih => exact ih
  | piece _ hpiece ih => exact forall_mem_cons.mpr ⟨hpiece, ih⟩
  | header _ hhead _ ih => exact forall_mem_cons.mpr ⟨hhead.append [' '] ⟨cons_ne_nil _ _, rfl⟩, ih⟩

/-! ## Literals -/

theorem splitFrom_inside {quote : Char} {body : Text} (hquote : quote ≠ '\\')
    (h : Inside quote body)
    (pieces : List Text) (current : Text) (braces : List Brace) (rest : Text) :
    splitFrom ⟨pieces, current, braces, some quote, false, false⟩ (body ++ quote :: rest) =
      splitFrom ⟨pieces, quote :: (body.reverse ++ current), braces, none, false, false⟩ rest := by
  induction h generalizing current with
  | nil =>
    rw [nil_append, splitFrom]
    simp [quoted, push, hquote]
  | plain hne hescape _ ih =>
    rw [cons_append, splitFrom]
    simp [quoted, push, hne, hescape, ih]
  | escaped _ ih =>
    rw [cons_append, cons_append, splitFrom]
    simp [quoted, push, splitFrom, ih]

theorem splitFrom_literal (hlit : IsLiteral lit) (hquote : p.quote = none)
    (hescaped : p.escaped = false) (rest : Text) :
    splitFrom p (lit ++ rest) = splitFrom ⟨p.pieces, lit.reverse ++ p.current, p.braces, none,
    false, false⟩ rest := by
  obtain ⟨quote, body, hopens, hbody, rfl⟩ := hlit
  have hmark : quote ≠ '/' ∧ quote ≠ '\\' ∧ isGlue quote = false := by
    simp only [isQuote, or_eq_true, decide_eq_true_eq] at hopens
    rcases hopens with (rfl | rfl) | rfl <;> decide
  have hcode :
      p.code quote = ⟨p.pieces, quote :: p.current, p.braces, some quote, false, false⟩ := by
    simp [code, push, hmark, hopens, hescaped]
  rw [cons_append, splitFrom, hquote]
  simp only [hmark.1, decide_false, Bool.false_and, false_eq_true, if_false, hcode]
  rw [append_assoc, singleton_append, splitFrom_inside hmark.2.1 hbody]
  simp

theorem Progress.Follows.literal (h : p.Follows u) (lit : Text) :
    Follows (u ++ lit) ⟨p.pieces, lit.reverse ++ p.current, p.braces, none, false, false⟩ := by
  obtain ⟨done, hu, hcut⟩ := h.cut
  exact ⟨⟨done, by simp [hu], hcut⟩, fun hglued => by cases hglued⟩

/-- Code is passed over to a place outside literals. -/
theorem splitFrom_passes (h : Passes rest a) (hquote : p.quote = none)
    (hescaped : p.escaped = false) (hp : p.Follows u) :
    ∃ q : Progress, splitFrom p (a ++ rest) = splitFrom q rest ∧ q.quote = none ∧
    q.escaped = false ∧ q.Follows (u ++ a) := by
  induction h generalizing p u with
  | nil => exact ⟨p, rfl, hquote, hescaped, by rwa [append_nil]⟩
  | @code c t hc hcomment _ ih =>
    have houtside : (p.code c).quote = none ∧ (p.code c).escaped = false := by
      rw [← hquote, ← hescaped]
      unfold code openBrace closeBrace glue
      rw [hc]
      repeat' split
      all_goals first | exact ⟨rfl, rfl⟩ | contradiction
    have hnone : ¬ (c = '/' && (t ++ rest).head? = some '/') = true := by
      intro hmark
      rw [and_eq_true, decide_eq_true_eq, decide_eq_true_eq] at hmark
      obtain ⟨tail, htail⟩ := head?_eq_some_iff.mp hmark.2
      exact hcomment ⟨tail, by rw [hmark.1, htail]; rfl⟩
    rw [cons_append, splitFrom, hquote, append_cons u]
    simp only [hnone, false_eq_true, if_false]
    exact ih houtside.1 houtside.2 (hp.step (step_code p c))
  | @literal lit t hlit _ ih =>
    rw [append_assoc, splitFrom_literal hlit hquote hescaped, ← append_assoc]
    exact ih rfl rfl (hp.literal lit)

/-! ## Where a literal is -/

/-- Some piece, the latest first, has the literal right behind the characters of a text. -/
def Within (a lit : Text) (pieces : List Text) : Prop :=
  ∃ later earlier x y, pieces = later ++ (x ++ (lit ++ y)) :: earlier ∧
    solid (earlier.reverse.flatten ++ x) = solid a

namespace Within

theorem cons (h : Within a lit pieces) (t : Text) : Within a lit (t :: pieces) := by
  obtain ⟨later, earlier, x, y, rfl, hsolid⟩ := h
  exact ⟨t :: later, earlier, x, y, rfl, hsolid⟩

section

variable (h : Within a lit (t :: pieces))

include h

/-- The first piece has the literal, or the others do. -/
theorem cases_cons :
    (∃ x y, t = x ++ (lit ++ y) ∧ solid (pieces.reverse.flatten ++ x) = solid a) ∨
    Within a lit pieces := by
  obtain ⟨later, earlier, x, y, hpieces, hsolid⟩ := h
  cases later with
  | nil =>
    obtain ⟨rfl, rfl⟩ := cons.inj hpieces
    exact .inl ⟨x, y, rfl, hsolid⟩
  | cons first later =>
    obtain ⟨rfl, rfl⟩ := cons.inj hpieces
    exact .inr ⟨later, earlier, x, y, rfl, hsolid⟩

theorem grow (u : Text) : Within a lit ((t ++ u) :: pieces) := by
  rcases h.cases_cons with ⟨x, y, rfl, hsolid⟩ | h
  · exact ⟨[], pieces, x, y ++ u, by simp, hsolid⟩
  · exact h.cons _

theorem strip (hlit : Tidy lit) : Within a lit (Text.strip t :: pieces) := by
  rcases h.cases_cons with ⟨x, y, rfl, hsolid⟩ | h
  · refine ⟨[], pieces, stripStart x, stripEnd y, by rw [strip_around hlit.2 hlit.1]; rfl, ?_⟩
    have hlead : solid x = solid (stripStart x) := by
      conv_lhs => rw [← takeWhile_append_dropWhile (p := isBlank) (l := x), solid_append,
        solid_of_blank fun c hc => all_eq_true.mp all_takeWhile c hc]
      rfl
    rw [← hsolid, solid_append, solid_append, hlead]
  · exact h.cons _

end

theorem of_nil (h : Within a lit ([] :: pieces)) (hlit : Tidy lit) : Within a lit pieces := by
  rcases h.cases_cons with ⟨x, y, hempty, -⟩ | h
  · simp [hlit.1] at hempty
  · exact h

end Within

theorem within_finish (h : Within a lit (p.current.reverse :: p.pieces)) (hlit : Tidy lit) :
    Within a lit p.finish := by
  have hstrip := h.strip hlit
  unfold finish
  split
  · rename_i hempty
    rw [show Text.strip p.current.reverse = [] from isEmpty_iff.mp hempty] at hstrip
    exact hstrip.of_nil hlit
  · exact hstrip

theorem within_step (hlit : Tidy lit)
    (h : p.Follows u ∧ Within a lit (p.current.reverse :: p.pieces)) (hstep : p.Step c q) :
    q.Follows (u ++ [c]) ∧ Within a lit (q.current.reverse :: q.pieces) := by
  refine ⟨h.1.step hstep, ?_⟩
  cases hstep with
  | grow braces quote escaped =>
    rw [reverse_cons]
    exact h.2.grow [c]
  | header braces hc hheader => exact ((h.2.strip hlit).grow _).cons []
  | close braces hc => exact ((within_finish h.2 hlit).cons _).cons []
  | glue hglued hc =>
    obtain ⟨hcurrent, done, last, pieces, -, hpieces, -⟩ := h.1.glued hglued
    have hwithin := h.2
    rw [hcurrent, hpieces] at hwithin
    rw [glue, hpieces]
    exact ((hwithin.of_nil hlit).grow [c]).cons _

theorem IsLiteral.tidy (h : IsLiteral lit) : Tidy lit := by
  obtain ⟨quote, body, hopens, -, rfl⟩ := h
  have hquote : Tidy [quote] := by
    simp only [isQuote, or_eq_true, decide_eq_true_eq] at hopens
    rcases hopens with (rfl | rfl) | rfl <;> exact ⟨cons_ne_nil _ _, rfl⟩
  exact hquote.append body hquote

/-- Splitting keeps all characters in order, blanks aside, and no piece is empty or has blanks at
its ends. A string literal before any comment is part of one piece, right behind the characters that
precede it. A comment and all behind it, but for blanks at the end, ends the last piece. -/
theorem split_keeps (t : Text) : solid (split t).flatten = solid t ∧
    (∀ piece ∈ split t, piece ≠ [] ∧ strip piece = piece) ∧
    (∀ a lit rest, t = a ++ (lit ++ rest) → Passes (lit ++ rest) a → IsLiteral lit →
      ∃ before after x y, split t = before ++ (x ++ (lit ++ y)) :: after ∧
      solid (before.flatten ++ x) = solid a) ∧
    ∀ a rest, t = a ++ '/' :: '/' :: rest → Passes ('/' :: '/' :: rest) a →
      ∃ piece, (split t).getLast? = some piece ∧ stripEnd ('/' :: '/' :: rest) <:+ piece := by
  have hcut := cut_split t
  refine ⟨by simpa using hcut.solid, fun piece hpiece =>
    hcut.tidy piece (mem_reverse.mpr hpiece), ?_, ?_⟩
  · rintro a lit rest rfl hpasses hlit
    obtain ⟨p, hsplit, hquote, hescaped, hp⟩ := splitFrom_passes hpasses rfl rfl follows_start
    obtain ⟨done, hdone, hcut⟩ := hp.cut
    have hread : Within a lit ((lit.reverse ++ p.current).reverse :: p.pieces) := by
      refine ⟨[], p.pieces, p.current.reverse, [], by simp, ?_⟩
      rw [solid_append, hcut.solid, ← solid_append, ← hdone, nil_append]
    obtain ⟨last, ⟨-, hlast⟩, hend⟩ :=
      @exists_last _ _ (fun u p => p.Follows u ∧ Within a lit (p.current.reverse :: p.pieces))
      (within_step hlit.tidy) ⟨hp.literal lit, hread⟩ rest
    obtain ⟨later, earlier, x, y, hfinish, hsolid⟩ := within_finish hlast hlit.tidy
    refine ⟨earlier.reverse, later.reverse, x, y, ?_, hsolid⟩
    rw [split, hsplit, splitFrom_literal hlit hquote hescaped, hend, hfinish]
    simp
  · rintro a rest rfl hpasses
    obtain ⟨p, hsplit, hquote, -, -⟩ := splitFrom_passes hpasses rfl rfl follows_start
    have haround := @strip_around ['/'] rfl (cons_ne_nil _ _)
    have hslash : stripEnd ('/' :: '/' :: rest) = '/' :: stripEnd ('/' :: rest) :=
      haround [] ('/' :: rest)
    have hpiece : piece { p with current := ('/' :: rest).reverse ++ '/' :: p.current } =
        stripStart p.current.reverse ++ stripEnd ('/' :: '/' :: rest) := by
      rw [piece, hslash]
      simpa using haround p.current.reverse ('/' :: rest)
    refine ⟨_, ?_, hpiece ▸ suffix_append _ _⟩
    rw [split, hsplit, splitFrom, hquote]
    show (finish { p with
      current := ('/' :: rest).reverse ++ '/' :: p.current }).reverse.getLast? = _
    rw [getLast?_reverse, finish, if_neg (by rw [hpiece, hslash]; simp)]
    rfl

end CodeConverter.Block

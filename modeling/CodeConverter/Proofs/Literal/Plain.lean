import CodeConverter.Proofs.Literal.Retained
import CodeConverter.Proofs.Literal.Unmarked

/-!
# Texts with plain literals

A plain literal is closed, in single or double quotes, and not marked. A text all of whose literals
are plain keeps them when it is respelt outside its literals. They stay plain if the respelling puts
no mark before a token.
-/

namespace CodeConverter.Literal

open Text List Bool

variable {f : Text → Text} {t : Text} {items : List Item} {passed : Text} {literals : List Text}

/-- Whether a literal is closed, in single or double quotes, and not marked. -/
def isPlainLiteral (l : Bool × Text) : Bool :=
  !l.1 && l.2.head?.any isPlainQuote && isClosed l.2

/-- All literals of a text are plain. -/
def PlainLiterals (t : Text) : Prop :=
  ∀ l ∈ literalsOf t, isPlainLiteral l = true

instance (t : Text) : Decidable (PlainLiterals t) :=
  inferInstanceAs (Decidable (∀ l ∈ literalsOf t, isPlainLiteral l = true))

/-- The same code matters to a mark. -/
structure SameEnd (a b : Text) : Prop where
  word : a.head?.any isWord = b.head?.any isWord
  starts : startsWithMark a = startsWithMark b
  ends : endsInMark a = endsInMark b

theorem SameEnd.cons {a b : Text} (h : SameEnd a b) (c : Char) : SameEnd (c :: a) (c :: b) := by
  have hstarts : startsWithMark (c :: a) = startsWithMark (c :: b) := by
    rw [startsWithMark_cons, startsWithMark_cons, h.word]
  refine ⟨rfl, hstarts, ?_⟩
  by_cases hline : c = '\n'
  · subst hline
    exact h.starts
  · rw [endsInMark_cons hline, endsInMark_cons hline, hstarts]

theorem SameEnd.token (a b : Text) (n : Nat) :
    SameEnd ('\x00' :: a) ((maskToken n).reverse ++ b) := by
  have hreverse : (maskToken n).reverse ++ b = '\x00' :: ((decimal n).reverse ++ '\x00' :: b) := by
    simp [maskToken]
  have hmarks : endsMark '\x00' = false := by decide
  obtain ⟨hstarts, hends⟩ := marks_eq_false hmarks a
  obtain ⟨hstarts', hends'⟩ := marks_eq_false hmarks ((decimal n).reverse ++ '\x00' :: b)
  rw [hreverse]
  exact ⟨rfl, hstarts.trans hstarts'.symm, hends.trans hends'.symm⟩

theorem unmarked_cons_iff {c : Char} (hc : c ≠ '\x00') {t : Text} : Unmarked (c :: t) ↔
    Unmarked t :=
  ⟨fun h => .later (a := [c]) h, fun h => h.cons fun heq => absurd heq hc⟩

/-- A token is not marked if the code before it does not end in a mark. -/
theorem unmarked_token_iff (n : Nat) {t : Text} :
    Unmarked ((maskToken n).reverse ++ t) ↔ endsInMark t = false ∧ Unmarked t := by
  have hreverse : (maskToken n).reverse ++ t = '\x00' :: ((decimal n).reverse ++ '\x00' :: t) := by
    simp [maskToken]
  have hdigits : ∀ c ∈ decimal n, c.isDigit = true := fun c => isDigit_of_mem_decimal
  rw [hreverse]
  constructor
  · intro h
    have hlater : Unmarked ('\x00' :: t) := .later (a := '\x00' :: (decimal n).reverse) h
    exact ⟨hlater [] t rfl, .later (a := ['\x00']) hlater⟩
  · rintro ⟨hends, h⟩
    have hinner : Unmarked ((decimal n).reverse ++ '\x00' :: t) := by
      refine (h.cons fun _ => hends).append fun hmem => ?_
      exact absurd (hdigits _ (mem_reverse.mp hmem)) (by decide)
    refine hinner.cons fun _ => ?_
    obtain ⟨d, ds, hds⟩ : ∃ d ds, (decimal n).reverse = d :: ds :=
      exists_cons_of_ne_nil (by simp [decimal])
    have hdigit : d.isDigit = true := hdigits d (mem_reverse.mp (by rw [hds]; exact mem_cons_self))
    have hmark : endsMark d = false := by
      rw [eq_false_iff]
      intro hmark
      simp only [endsMark, or_eq_true, decide_eq_true_eq] at hmark
      rcases hmark with (rfl | rfl) | rfl <;> cases hdigit
    rw [hds]
    exact (marks_eq_false hmark _).2

theorem unmarked_render_iff (hclean : Clean items) {before : Text}
    (h : SameEnd before passed) :
    Unmarked ((render items).reverse ++ passed) ↔
    (∀ mark ∈ marksFrom before items, mark.1 = false) ∧ Unmarked passed := by
  induction items generalizing before passed with
  | nil => simp [marksFrom]
  | cons i items ih =>
    cases i with
    | code c =>
      have hc : c ≠ '\x00' := by
        rintro rfl
        exact absurd (hclean _ mem_cons_self) (by decide)
      rw [render_code_cons, reverse_cons, append_assoc, singleton_append,
        ih hclean.tail (h.cons c), unmarked_cons_iff hc]
      rfl
    | mark n =>
      rw [render_mark_cons, reverse_append, append_assoc, ih hclean.tail (.token before passed n),
        unmarked_token_iff, ← h.ends]
      simp only [marksFrom, forall_mem_cons]
      constructor
      · rintro ⟨hlater, hends, hpassed⟩
        exact ⟨⟨hends, hlater⟩, hpassed⟩
      · rintro ⟨⟨hends, hlater⟩, hpassed⟩
        exact ⟨hlater, hends, hpassed⟩

/-- Plain literals are kept. -/
theorem respellLiterals_of_plain (respell : Text → Except Fault Text) {ts : List Token}
    (h : ∀ l ∈ ts.filterMap Token.literal?, isPlainLiteral l = true) :
    respellLiterals respell ts = .ok (literalTexts ts) := by
  induction ts with
  | nil => rfl
  | cons token ts ih =>
    cases token with
    | code c => exact ih h
    | literal marked text =>
      have hrest := ih fun l hl => h l (mem_cons_of_mem _ hl)
      have hfirst := h (marked, text) mem_cons_self
      simp only [isPlainLiteral, and_eq_true, not_eq_true'] at hfirst
      obtain ⟨⟨rfl, hquote⟩, -⟩ := hfirst
      have hhead : text.head? ≠ some '`' := by
        intro hhead
        rw [hhead] at hquote
        cases hquote
      rw [respellLiterals, respellHoles, if_neg hhead, hrest]
      rfl

theorem fillable_of_closed (h : ∀ n ∈ marks items, isClosed (literals.getD n []) = true) :
    Fillable literals items := by
  induction items with
  | nil => trivial
  | cons i items ih =>
    cases i with
    | code c => exact ih h
    | mark n => exact ⟨.inl (h n mem_cons_self), ih fun k hk => h k (mem_cons_of_mem _ hk)⟩

theorem eq_of_map_snd {as bs : List (Bool × Text)} (ha : ∀ l ∈ as, l.1 = false)
    (hb : ∀ l ∈ bs, l.1 = false) (h : as.map Prod.snd = bs.map Prod.snd) : as = bs := by
  induction as generalizing bs with
  | nil => exact (map_eq_nil_iff.mp h.symm).symm
  | cons a as ih =>
    cases bs with
    | nil => cases h
    | cons b bs =>
      obtain ⟨htext, hrest⟩ := cons.inj h
      have hfirst : a = b :=
        Prod.ext ((ha a mem_cons_self).trans (hb b mem_cons_self).symm) htext
      rw [hfirst,
        ih (fun l hl => ha l (mem_cons_of_mem _ hl)) (fun l hl =>
        hb l (mem_cons_of_mem _ hl)) hrest]

theorem PlainLiterals.unmarked (h : PlainLiterals t) (ht : '\x00' ∉ t) :
    Unmarked (mask 0 (tokens t)).reverse := by
  have hsame : SameEnd [] [] := ⟨rfl, rfl, rfl⟩
  rw [mask_eq_render, ← append_nil (render _).reverse,
    unmarked_render_iff (clean_maskItems ht) hsame]
  refine ⟨fun mark hmark => ?_, fun a b heq => by simp at heq⟩
  have hmem : (mark.1, (literalTexts (tokens t)).getD mark.2 []) ∈ literalsOf t := by
    rw [literalsOf_eq_map ht]
    exact mem_map_of_mem hmark
  have hplain := h _ hmem
  simp only [isPlainLiteral, and_eq_true, not_eq_true'] at hplain
  exact hplain.1.1

theorem PlainLiterals.isClosed_getD (h : PlainLiterals t) {n : Nat}
    (hn : n < (literalTexts (tokens t)).length) :
    isClosed ((literalTexts (tokens t)).getD n []) = true := by
  have hmem : (literalTexts (tokens t)).getD n [] ∈ literalTexts (tokens t) := by
    rw [getD_eq_getElem?_getD, getElem?_eq_getElem hn]
    exact getElem_mem hn
  generalize (literalTexts (tokens t)).getD n [] = text at hmem
  rw [← map_literalsOf t, mem_map] at hmem
  obtain ⟨l, hl, rfl⟩ := hmem
  exact (and_eq_true_iff.mp (h l hl)).2

theorem SameEnd.closed {l : Text} (hl : isClosed l = true) (a b : Text) (n : Nat) :
    SameEnd ((maskToken n).reverse ++ a) (l.reverse ++ b) := by
  obtain ⟨front, quote, hquote, rfl⟩ := exists_of_isClosed hl
  have hother : isWord quote = false ∧ endsMark quote = false := by
    simp only [isQuote, or_eq_true, decide_eq_true_eq] at hquote
    rcases hquote with (rfl | rfl) | rfl <;> decide
  obtain ⟨hstarts, hends⟩ := marks_eq_false hother.2 (front.reverse ++ b)
  have htoken := SameEnd.token [] a n
  have hreverse : (front ++ [quote]).reverse ++ b = quote :: (front.reverse ++ b) := by simp
  rw [hreverse]
  exact ⟨htoken.word.symm.trans hother.1.symm, htoken.starts.symm.trans hstarts.symm,
    htoken.ends.symm.trans hends.symm⟩

/-- No line of a masked text ends in a mark if none does in the text with its literals. -/
theorem unmarkedLines_render (hclosed : ∀ n ∈ marks items, isClosed (literals.getD n []) = true)
    {masked : Text} (hsame : SameEnd masked passed) (hmasked : UnmarkedLines masked)
    (h : UnmarkedLines ((fill literals items).reverse ++ passed)) :
    UnmarkedLines ((render items).reverse ++ masked) := by
  induction items generalizing masked passed with
  | nil => exact hmasked
  | cons i items ih =>
    cases i with
    | code c =>
      have hrest : UnmarkedLines ((fill literals items).reverse ++ c :: passed) := by
        simpa [fill] using h
      rw [render_code_cons, reverse_cons, append_assoc, singleton_append]
      refine ih hclosed (hsame.cons c) (hmasked.cons fun hc => ?_) hrest
      rw [hsame.starts]
      exact hrest _ _ (by rw [hc])
    | mark n =>
      have hrest : UnmarkedLines
          ((fill literals items).reverse ++ ((literals.getD n []).reverse ++ passed)) := by
        simpa [fill] using h
      have hdigits : '\n' ∉ (maskToken n).reverse := by
        intro hmem
        have hmem : '\n' ∈ decimal n := by simpa [maskToken] using hmem
        exact absurd (isDigit_of_mem_decimal hmem) (by decide)
      rw [render_mark_cons, reverse_append, append_assoc]
      exact ih (fun k hk => hclosed k (mem_cons_of_mem _ hk))
        (.closed (hclosed n mem_cons_self) _ _ n) (hmasked.append hdigits) hrest

theorem PlainLiterals.unmarkedLines (h : PlainLiterals t) (hlines : UnmarkedLines t.reverse) :
    UnmarkedLines (mask 0 (tokens t)).reverse := by
  have hclosed : ∀ n ∈ marks (maskItems 0 (tokens t)),
      isClosed ((literalTexts (tokens t)).getD n []) = true := by
    intro n hn
    rw [marks_maskItems, ← length_literalTexts, mem_range'_1, Nat.zero_add] at hn
    exact h.isClosed_getD hn.2
  have hsame : SameEnd [] [] := ⟨rfl, rfl, rfl⟩
  rw [mask_eq_render, ← append_nil (render _).reverse]
  refine unmarkedLines_render hclosed hsame (fun a b heq => by simp at heq) ?_
  rwa [(fill_tokens t).1, append_nil]

/-- Respelling a text with plain literals keeps them. They stay plain if no token gets a mark. -/
theorem meets_respellWithin_plain (hf : Respelling f) (depth : Nat) (ht : '\x00' ∉ t)
    (hplain : PlainLiterals t) :
    Yields (fun out => (literalsOf out).map Prod.snd = (literalsOf t).map Prod.snd ∧
        (Unmarked (f (mask 0 (tokens t))).reverse → literalsOf out = literalsOf t))
      (respellWithin f (depth + 1) t) := by
  have hunmarked : ∀ l ∈ literalsOf t, l.1 = false := by
    intro l hl
    have hl := hplain l hl
    simp only [isPlainLiteral, and_eq_true, not_eq_true'] at hl
    exact hl.1.1
  obtain ⟨items, hclean, hrender, hmarks⟩ := hf _ (clean_maskItems ht)
  rw [marks_maskItems, ← length_literalTexts] at hmarks
  have hfillable : Fillable (literalTexts (tokens t)) items := by
    refine fillable_of_closed fun n hn => hplain.isClosed_getD ?_
    rwa [hmarks, mem_range'_1, Nat.zero_add, and_iff_right (Nat.zero_le n)] at hn
  have hliterals :
      respellLiterals (respellWithin f depth) (tokens t) = .ok (literalTexts (tokens t)) :=
    respellLiterals_of_plain _ hplain
  rw [respellWithin, hliterals]
  show Meets _ _ (unmask (literalTexts (tokens t)) (f (mask 0 (tokens t))))
  rw [mask_eq_render, hrender]
  refine (meets_unmask_render hclean).imp ?_
  rintro out rfl
  have hsame := (map_literalsOf_fill hclean hfillable hmarks).trans (map_literalsOf t).symm
  refine ⟨hsame, fun hkeeps => eq_of_map_snd (fun l hl => ?_) hunmarked hsame⟩
  rw [← append_nil (render items).reverse, unmarked_render_iff hclean ⟨rfl, rfl, rfl⟩] at hkeeps
  rw [literalsOf, literalsFrom_fill hclean hfillable, mem_map] at hl
  obtain ⟨mark, hmark, rfl⟩ := hl
  exact hkeeps.1 mark hmark

end CodeConverter.Literal

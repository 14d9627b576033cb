import CodeConverter.Proofs.Literal.Outside

/-!
# The outline of a text

Where literals begin and end depends on the quotes and escapes of a text and on whether there are
other characters between them, but not on which. The outline keeps just that. A respelling that
replaces a nonempty run of other characters by another keeps the outline of the masked text, so the
outline of the whole text, and a literal with respelled holes is still a literal of the same kind.
-/

namespace CodeConverter.Literal

open Pattern List

/-- The characters that matter to a scan, and the null characters around the number of a token. -/
def isHard (c : Char) : Bool :=
  isQuote c || c = '\\' || c = '\x00'

/-- A blank in front of a text that has none there. -/
def softened (t : Text) : Text :=
  if t.head? = some ' ' then t else ' ' :: t

/-- A character in front of an outline. -/
def outlineCons (c : Char) (t : Text) : Text :=
  if isHard c then c :: t else softened t

/-- A text with a blank for every run of characters that do not matter to a scan. -/
def outline (t : Text) : Text :=
  t.foldr outlineCons []

theorem softened_blank (t : Text) : softened (' ' :: t) = ' ' :: t := if_pos rfl

variable {c : Char} {t a : Text} {items others : List Item}

theorem softened_of_ne (hc : c ≠ ' ') (t : Text) : softened (c :: t) = ' ' :: c :: t :=
  if_neg (by simpa using hc)

theorem exists_softened (t : Text) : ∃ u, softened t = ' ' :: u := by
  cases t with
  | nil => exact ⟨[], rfl⟩
  | cons c t =>
    by_cases hc : c = ' '
    · exact ⟨t, by rw [hc, softened_blank]⟩
    · exact ⟨c :: t, softened_of_ne hc t⟩

theorem softened_softened (t : Text) : softened (softened t) = softened t := by
  obtain ⟨u, hu⟩ := exists_softened t
  rw [hu, softened_blank]

theorem outline_cons (c : Char) (t : Text) : outline (c :: t) = outlineCons c (outline t) := rfl

theorem outline_hard (hc : isHard c = true) (t : Text) : outline (c :: t) = c :: outline t := by
  rw [outline_cons, outlineCons, if_pos hc]

theorem foldr_outline (a u : Text) : a.foldr outlineCons u = (outline a).foldr outlineCons u := by
  induction a with
  | nil => rfl
  | cons c a ih =>
    rw [foldr_cons, outline_cons]
    by_cases hc : isHard c = true
    · rw [outlineCons, outlineCons, if_pos hc, if_pos hc, foldr_cons, ih, outlineCons, if_pos hc]
    · rw [outlineCons, outlineCons, if_neg hc, if_neg hc, ih]
      cases hhead : outline a with
      | nil => rfl
      | cons d b =>
        by_cases hd : d = ' '
        · subst hd
          exact softened_softened _
        · rw [softened_of_ne hd]
          rfl

theorem outline_append (a b : Text) :
    outline (a ++ b) = (outline a).foldr outlineCons (outline b) := by
  rw [← foldr_outline, outline, foldr_append]
  rfl

theorem compatible_outline : Compatible fun out t => outline out = outline t where
  nil := rfl
  append := by
    intro a b c d hab hcd
    rw [outline_append, outline_append, hab, hcd]

theorem outline_append_hard (hc : isHard c = true) (a b : Text) :
    outline (a ++ c :: b) = outline a ++ c :: outline b := by
  have hne : c ≠ ' ' := by
    rintro rfl
    cases hc
  induction a with
  | nil => exact outline_hard hc b
  | cons d a ih =>
    rw [cons_append, outline_cons, outline_cons, ih, outlineCons, outlineCons]
    split
    · rfl
    · cases outline a with
      | nil => exact softened_of_ne hne _
      | cons e u =>
        by_cases he : e = ' '
        · rw [he, cons_append, softened_blank, softened_blank]
          rfl
        · rw [cons_append, softened_of_ne he, softened_of_ne he]
          rfl

theorem outline_soft (hne : t ≠ []) (ht : ∀ c ∈ t, isHard c = false) : outline t = [' '] := by
  induction t with
  | nil => exact absurd rfl hne
  | cons c t ih =>
    have hc : ¬ isHard c = true := by simp [ht c mem_cons_self]
    rw [outline_cons, outlineCons, if_neg hc]
    by_cases hnil : t = []
    · rw [hnil]
      rfl
    · rw [ih hnil fun d hd => ht d (mem_cons_of_mem _ hd)]
      rfl

theorem eq_cons_of_outline (hc : isHard c = true) {u : Text} (h : outline t = c :: u) :
    ∃ rest, t = c :: rest ∧ outline rest = u := by
  cases t with
  | nil => cases h
  | cons d t =>
    rw [outline_cons, outlineCons] at h
    split at h
    · obtain ⟨rfl, rfl⟩ := cons.inj h
      exact ⟨t, rfl, rfl⟩
    · obtain ⟨v, hv⟩ := exists_softened (outline t)
      obtain ⟨rfl, -⟩ := cons.inj (hv.symm.trans h)
      cases hc

/-- The outline has the quotes and backslashes of the text. -/
theorem mem_outline (hc : isHard c = true) (t : Text) : c ∈ outline t ↔ c ∈ t := by
  have hcons : ∀ d u, c ∈ outlineCons d u ↔ c = d ∨ c ∈ u := by
    intro d u
    unfold outlineCons softened
    split
    · exact mem_cons
    · rename_i hd
      have hother : c ≠ d := by
        rintro rfl
        exact hd hc
      have hblank : c ≠ ' ' := by
        rintro rfl
        cases hc
      split <;> simp [hother, hblank]
  induction t with
  | nil => rfl
  | cons d t ih => exact (hcons d _).trans ((or_congr_right ih).trans mem_cons.symm)

theorem eq_nil_of_outline (h : outline t = []) : t = [] := by
  cases t with
  | nil => rfl
  | cons c t =>
    rw [outline_cons, outlineCons] at h
    split at h
    · cases h
    · obtain ⟨u, hu⟩ := exists_softened (outline t)
      cases hu.symm.trans h

variable {quote : Char}

theorem leftover_softened (hquote : isQuote quote = true) (t : Text) :
    leftover quote (softened t) = leftover quote t := by
  have hne : ' ' ≠ quote := by
    rintro rfl
    cases hquote
  unfold softened
  split
  · rfl
  · rw [leftover_cons (by decide), if_neg hne]

theorem leftover_outline (hquote : isQuote quote = true) (t : Text) :
    leftover quote (outline t) = (leftover quote t).map outline := by
  have hhard : isHard quote = true := by simp [isHard, hquote]
  have hblank : ' ' ≠ quote := by
    rintro rfl
    cases hquote
  fun_induction leftover quote t with
  | case1 => rfl
  | case2 => rfl
  | case3 c t ih =>
    rw [outline_hard rfl, outline_cons, outlineCons, ← ih]
    split
    · rfl
    · cases hhead : outline t with
      | nil => rfl
      | cons d u =>
        by_cases hd : d = ' '
        · rw [hd, softened_blank, leftover, leftover_cons (by decide), if_neg hblank]
        · rw [softened_of_ne hd, leftover]
  | case4 t hsingle hpair =>
    rw [outline_hard hhard, leftover_cons (ne_escape hsingle hpair), if_pos rfl]
    rfl
  | case5 c t hsingle hpair hne ih =>
    rw [outline_cons, outlineCons, ← ih]
    split
    · rw [leftover_cons (ne_escape hsingle hpair), if_neg hne]
    · exact leftover_softened hquote _

/-- Whether a literal is closed or open can be seen in the outline. -/
theorem isClosed_of_outline {new old : Text} (h : outline new = outline old) :
    (isClosed old = true → isClosed new = true) ∧ (isOpen old = true → isOpen new = true) := by
  cases old with
  | nil => exact ⟨nofun, nofun⟩
  | cons quote body =>
    have hsame : isQuote quote = true → ∃ other, new = quote :: other ∧
        (leftover quote other).map outline = (leftover quote body).map outline := by
      intro hquote
      have hhard : isHard quote = true := by simp [isHard, hquote]
      rw [outline_hard hhard] at h
      obtain ⟨other, rfl, hbody⟩ := eq_cons_of_outline hhard h
      exact ⟨other, rfl, by rw [← leftover_outline hquote, ← leftover_outline hquote, hbody]⟩
    constructor
    · intro hclosed
      simp only [isClosed, Bool.and_eq_true, decide_eq_true_eq] at hclosed
      obtain ⟨other, rfl, hleft⟩ := hsame hclosed.1
      rw [hclosed.2] at hleft
      cases hother : leftover quote other with
      | none =>
        rw [hother] at hleft
        cases hleft
      | some rest =>
        rw [hother] at hleft
        obtain rfl := eq_nil_of_outline (Option.some.inj hleft)
        simp [isClosed, hclosed.1, hother]
    · intro hopen
      simp only [isOpen, Bool.and_eq_true, decide_eq_true_eq] at hopen
      obtain ⟨other, rfl, hleft⟩ := hsame hopen.1
      rw [hopen.2] at hleft
      have hother : leftover quote other = none := by simpa using hleft
      simp [isOpen, hopen.1, hother]

/-- The same tokens in the same order, with code of the same outline between them. -/
inductive Parallel : List Item → List Item → Prop
  | codes {a b : Text} (h : outline a = outline b) : Parallel (codes a) (codes b)
  | mark {a b : Text} {as bs : List Item} (n : Nat) (h : outline a = outline b)
      (hrest : Parallel as bs) :
      Parallel (Literal.codes a ++ .mark n :: as) (Literal.codes b ++ .mark n :: bs)

theorem exists_codes (items : List Item) : (∃ a, items = codes a) ∨ ∃ a n rest,
    items = codes a ++ .mark n :: rest := by
  induction items with
  | nil => exact .inl ⟨[], rfl⟩
  | cons i items ih =>
    cases i with
    | code c =>
      rcases ih with ⟨a, rfl⟩ | ⟨a, n, rest, rfl⟩
      · exact .inl ⟨c :: a, rfl⟩
      · exact .inr ⟨c :: a, n, rest, rfl⟩
    | mark n => exact .inr ⟨[], n, items, rfl⟩

theorem outline_render_mark (a : Text) (n : Nat) (rest : List Item) :
    outline (render (codes a ++ .mark n :: rest)) =
      outline a ++ '\x00' :: (outline (Text.decimal n) ++ '\x00' :: outline (render rest)) := by
  have hrender : render (codes a ++ .mark n :: rest) = a ++ '\x00' ::
      (Text.decimal n ++ '\x00' :: render rest) := by
    simp [maskToken]
  rw [hrender, outline_append_hard rfl, outline_append_hard rfl]

theorem not_mem_of_clean (h : Clean (codes a)) : '\x00' ∉ outline a := by
  rw [mem_outline rfl]
  exact fun hmem => absurd (clean_codes_iff.mp h _ hmem) (by decide)

/-- Masked texts with the same tokens and the same outline are parallel. -/
theorem parallel_of_outline (hclean : Clean items) (hothers : Clean others)
    (hmarks : marks items = marks others)
    (houtline : outline (render items) = outline (render others)) : Parallel items others := by
  generalize hnumbers : marks items = numbers at hmarks
  induction numbers generalizing items others with
  | nil =>
    rcases exists_codes items with ⟨a, rfl⟩ | ⟨a, n, rest, rfl⟩
    · rcases exists_codes others with ⟨b, rfl⟩ | ⟨b, n, rest, rfl⟩
      · rw [render_codes, render_codes] at houtline
        exact .codes houtline
      · simp at hmarks
    · simp at hnumbers
  | cons k numbers ih =>
    rcases exists_codes items with ⟨a, rfl⟩ | ⟨a, n, rest, rfl⟩
    · simp at hnumbers
    · rcases exists_codes others with ⟨b, rfl⟩ | ⟨b, n', rest', rfl⟩
      · simp at hmarks
      · obtain ⟨rfl, hrest⟩ : n = k ∧ marks rest = numbers := by simpa using hnumbers
        obtain ⟨rfl, hrest'⟩ : n = n' ∧ numbers = marks rest' := by simpa using hmarks
        rw [outline_render_mark, outline_render_mark] at houtline
        obtain ⟨hcode, htail⟩ := Text.append_cons_inj_of_not_mem (not_mem_of_clean hclean.left)
          (not_mem_of_clean hothers.left) houtline
        have hlater := (cons.inj (append_cancel_left htail)).2
        exact .mark n hcode (ih hclean.right.tail hothers.right.tail hlater hrest hrest')

theorem fill_codes (literals : List Text) (a : Text) : fill literals (codes a) = a := by
  induction a with
  | nil => rfl
  | cons c a ih => exact congrArg (c :: ·) ih

theorem fillable_codes_append {literals : List Text} :
    Fillable literals (codes a ++ items) ↔ Fillable literals items := by
  induction a with
  | nil => rfl
  | cons c a ih => exact ih

theorem Parallel.nil (h : Parallel items []) : items = [] := by
  generalize hnone : ([] : List Item) = none at h
  cases h with
  | @codes a b h =>
    obtain rfl : b = [] := map_eq_nil_iff.mp hnone.symm
    rw [eq_nil_of_outline h]
  | mark => simp at hnone

/-- Parallel items filled with literals of the same outlines have the same outline, and the first
can be filled if the second can. -/
theorem Parallel.fill (h : Parallel items others) {olds news : List Text}
    (hsame : ∀ n, outline (news.getD n []) = outline (olds.getD n [])) :
    outline (Literal.fill news items) = outline (Literal.fill olds others) ∧
      (Fillable olds others → Fillable news items) := by
  induction h with
  | @codes a b h =>
    refine ⟨by rw [fill_codes, fill_codes, h], fun _ => ?_⟩
    rw [← append_nil (Literal.codes a), fillable_codes_append]
    trivial
  | @mark a b as bs n h hrest ih =>
    constructor
    · rw [fill_append, fill_append, fill_codes, fill_codes]
      exact compatible_outline.append h (compatible_outline.append (hsame n) ih.1)
    · intro hfillable
      obtain ⟨hliteral, hlater⟩ := fillable_codes_append.mp hfillable
      have hkept := isClosed_of_outline (hsame n)
      refine fillable_codes_append.mpr ⟨?_, ih.2 hlater⟩
      refine hliteral.imp hkept.1 fun hopen => ⟨hkept.2 hopen.1, Parallel.nil ?_⟩
      rw [← hopen.2]
      exact hrest

end CodeConverter.Literal

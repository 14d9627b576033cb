import CodeConverter.Proofs.Indent.Nesting

/-!
# Brackets left open

A reader of a line that knows string literals passes over each of them to the quote that ends it,
escapes honoured, and stops at the first `#` in between. The scans of a line close a quote at the
next one of its kind. Where the two agree on every literal, the counter of open brackets is the
number of brackets that the lines leave open (`brackets_of_run`).
-/

namespace CodeConverter.Literal

open Text List

/-- The characters of a line outside its literals and before its comment. The number counts the
characters of the literal at hand that are still to be passed. -/
def outside : Nat → Text → Text
  | _, [] => []
  | n + 1, _ :: t => outside n t
  | 0, c :: t =>
    if isPlainQuote c then outside (tail c t).length t
    else if c = '#' then [] else c :: outside 0 t

/-- The text before and after the first `#` outside the literals of a line. -/
def cutOutside : Nat → Text → Option (Text × Text)
  | _, [] => none
  | n + 1, c :: t => (cutOutside n t).map fun r => (c :: r.1, r.2)
  | 0, c :: t =>
    if isPlainQuote c then (cutOutside (tail c t).length t).map fun r => (c :: r.1, r.2)
    else if c = '#' then some ([], t)
    else (cutOutside 0 t).map fun r => (c :: r.1, r.2)

/-- Every literal of the line ends at the next quote of its kind. -/
inductive Legible : Text → Prop
  | nil : Legible []
  | comment (t : Text) : Legible ('#' :: t)
  | code {c : Char} {t : Text} : isPlainQuote c = false → c ≠ '#' → Legible t → Legible (c :: t)
  | literal {quote : Char} {body t : Text} : isPlainQuote quote = true → quote ∉ body →
      tail quote (body ++ quote :: t) = body ++ [quote] → Legible t →
      Legible (quote :: (body ++ quote :: t))

variable {body code rest t : Text} {quote : Char}

theorem outside_skip (body t : Text) : outside body.length (body ++ t) = outside 0 t := by
  induction body with
  | nil => rfl
  | cons c body ih => exact ih

theorem cutOutside_skip (body t : Text) : cutOutside body.length (body ++ t) =
    (cutOutside 0 t).map fun r => (body ++ r.1, r.2) := by
  induction body with
  | nil => cases h : cutOutside 0 t <;> exact h
  | cons c body ih =>
    show (cutOutside body.length (body ++ t)).map _ = _
    rw [ih, Option.map_map]
    rfl

section Passing

variable (hquote : isPlainQuote quote = true)
    (htail : tail quote (body ++ quote :: t) = body ++ [quote])

include hquote htail

theorem outside_literal : outside 0 (quote :: (body ++ quote :: t)) = outside 0 t := by
  rw [outside, if_pos hquote, htail, append_cons body quote t, outside_skip]

theorem cutOutside_literal : cutOutside 0 (quote :: (body ++ quote :: t)) =
    (cutOutside 0 t).map fun r => (quote :: (body ++ quote :: r.1), r.2) := by
  rw [cutOutside, if_pos hquote, htail, append_cons body quote t, cutOutside_skip, Option.map_map]
  congr 1
  funext r
  simp

end Passing

theorem cutComment_literal (h : quote ∉ body) (t : Text) :
    cutComment (some quote) (body ++ quote :: t) =
    (cutComment none t).map fun r => (body ++ quote :: r.1, r.2) := by
  induction body with
  | nil =>
    show (cutComment (if quote = quote then none else some quote) t).map _ = _
    rw [if_pos rfl]
    rfl
  | cons c body ih =>
    rw [mem_cons, not_or] at h
    show (cutComment (if c = quote then none else some quote) (body ++ quote :: t)).map _ = _
    rw [if_neg (Ne.symm h.1), ih h.2, Option.map_map]
    rfl

theorem bracketBalanceFrom_literal (h : quote ∉ body) (t : Text) :
    bracketBalanceFrom (some quote) (body ++ quote :: t) = bracketBalance t := by
  induction body with
  | nil =>
    show bracketBalanceFrom (if quote = quote then none else some quote) t = _
    rw [if_pos rfl]
    rfl
  | cons c body ih =>
    rw [mem_cons, not_or] at h
    show bracketBalanceFrom (if c = quote then none else some quote) (body ++ quote :: t) = _
    rw [if_neg (Ne.symm h.1)]
    exact ih h.2

/-- The brackets opened by a text without literals minus those closed by it. -/
def bracketChange (t : Text) : Int :=
  t.foldr (fun c n => depthChange c + n) 0

theorem bracketBalance_quote (h : isPlainQuote quote = true) (t : Text) :
    bracketBalance (quote :: t) = bracketBalanceFrom (some quote) t := by
  have hchange : depthChange quote = 0 := by
    simp only [isPlainQuote, Bool.or_eq_true, decide_eq_true_eq] at h
    rcases h with rfl | rfl <;> decide
  show depthChange quote + bracketBalanceFrom (if isPlainQuote quote then some quote
      else none) t = _
  rw [hchange, if_pos h, Int.zero_add]

theorem bracketBalance_code {c : Char} (h : isPlainQuote c = false) (t : Text) :
    bracketBalance (c :: t) = depthChange c + bracketBalance t := by
  show depthChange c + bracketBalanceFrom (if isPlainQuote c then some c else none) t = _
  rw [h, if_neg Bool.false_ne_true]
  rfl

/-- The comment starts at the first number sign outside of literals. -/
theorem Legible.cutComment_eq (h : Legible t) : cutComment none t = cutOutside 0 t := by
  induction h with
  | nil => rfl
  | comment t => rfl
  | @code c t hc hnote _ ih =>
    show (if c = '#' then _ else (cutComment (if isPlainQuote c then some c else none) t).map _) =
      if isPlainQuote c then _ else if c = '#' then _ else (cutOutside 0 t).map _
    rw [hc, if_neg hnote, if_neg Bool.false_ne_true, if_neg Bool.false_ne_true, if_neg hnote, ih]
  | @literal quote body t hquote hbody htail _ ih =>
    have hnote : quote ≠ '#' := by
      rintro rfl
      cases hquote
    show (if quote = '#'
        then _ else (cutComment (if isPlainQuote quote then some quote else none) _).map _) = _
    rw [if_neg hnote, if_pos hquote, cutComment_literal hbody, cutOutside_literal hquote htail, ih,
      Option.map_map]
    rfl

/-- The brackets of a legible line are those outside its literals. -/
theorem Legible.bracketBalance_eq (h : Legible t) :
    bracketBalance (((cutComment none t).map Prod.fst).getD t) = bracketChange (outside 0 t) := by
  rw [h.cutComment_eq]
  induction h with
  | nil => rfl
  | comment t => rfl
  | @code c t hc hnote hrest ih =>
    have hcut : cutOutside 0 (c :: t) = (cutOutside 0 t).map fun r => (c :: r.1, r.2) := by
      rw [cutOutside, hc, if_neg Bool.false_ne_true, if_neg hnote]
    have hbare : outside 0 (c :: t) = c :: outside 0 t := by
      rw [outside, hc, if_neg Bool.false_ne_true, if_neg hnote]
    have hcode : (((cutOutside 0 (c :: t)).map Prod.fst).getD (c :: t)) =
        c :: (((cutOutside 0 t).map Prod.fst).getD t) := by
      rw [hcut]
      cases cutOutside 0 t <;> rfl
    rw [hcode, hbare, bracketBalance_code hc, ih]
    rfl
  | @literal quote body t hquote hbody htail hrest ih =>
    have hcode : (((cutOutside 0 (quote :: (body ++ quote :: t))).map Prod.fst).getD
        (quote :: (body ++ quote :: t))) =
        quote :: (body ++ quote :: (((cutOutside 0 t).map Prod.fst).getD t)) := by
      rw [cutOutside_literal hquote htail]
      cases cutOutside 0 t <;> rfl
    rw [hcode, outside_literal hquote htail, bracketBalance_quote hquote,
      bracketBalanceFrom_literal hbody, ih]

/-- Blanks at the end of a text are no brackets. -/
theorem bracketBalanceFrom_stripEnd (q : Option Char) (t : Text) :
    bracketBalanceFrom q (stripEnd t) = bracketBalanceFrom q t := by
  have hblanks : ∀ (q : Option Char) (blanks : Text), (∀ c ∈ blanks, isBlank c = true) →
      bracketBalanceFrom q blanks = 0 := by
    intro q blanks hblank
    induction blanks generalizing q with
    | nil => cases q <;> rfl
    | cons c blanks ih =>
      rw [forall_mem_cons] at hblank
      have hopen : isOpening c = false := Bool.eq_false_iff.mpr fun h => by
        simp only [isOpening, Bool.or_eq_true, decide_eq_true_eq] at h
        rcases h with (rfl | rfl) | rfl <;> exact absurd hblank.1 (by decide)
      have hclose : isClosing c = false := Bool.eq_false_iff.mpr fun h => by
        simp only [isClosing, Bool.or_eq_true, decide_eq_true_eq] at h
        rcases h with (rfl | rfl) | rfl <;> exact absurd hblank.1 (by decide)
      have hchange : depthChange c = 0 := by rw [depthChange, hopen, hclose]; rfl
      cases q with
      | none => exact (congrArg₂ _ hchange (ih _ hblank.2)).trans rfl
      | some q => exact ih _ hblank.2
  have happend : ∀ (q : Option Char) (t blanks : Text), (∀ c ∈ blanks, isBlank c = true) →
      bracketBalanceFrom q (t ++ blanks) = bracketBalanceFrom q t := by
    intro q t blanks hblank
    induction t generalizing q with
    | nil => exact (hblanks q blanks hblank).trans (by cases q <;> rfl)
    | cons c t ih =>
      cases q with
      | none => exact congrArg (depthChange c + ·) (ih _)
      | some q => exact ih _
  obtain ⟨dropped, ht, hblank⟩ := dropEndWhile_parts isBlank t
  conv_rhs => rw [ht, happend q _ dropped hblank]
  rfl

theorem Legible.count_eq (h : Legible t) {n : Int} (hn : 0 ≤ n)
    (hinside : 0 < n → cutOutside 0 t = none) :
    (if 0 < n then max (n + bracketBalance t) 0 else max (bracketBalance (splitComment t).1) 0) =
      max (n + bracketChange (outside 0 t)) 0 := by
  rw [← h.bracketBalance_eq, h.cutComment_eq]
  split_ifs with hopen
  · rw [hinside hopen]
    rfl
  · obtain rfl : n = 0 := by omega
    rw [Int.zero_add, splitComment, h.cutComment_eq]
    cases cutOutside 0 t with
    | none => rfl
    | some parts => exact congrArg (max · 0) (bracketBalanceFrom_stripEnd none parts.1)

theorem Legible.cutOutside_of_comment (h : Legible t) {comment : Text}
    (hcomment : (splitComment t).2 = some comment) :
    ∃ code rest, cutOutside 0 t = some (code, rest) ∧ comment = strip rest := by
  rw [splitComment, h.cutComment_eq] at hcomment
  cases hcut : cutOutside 0 t with
  | none =>
    rw [hcut] at hcomment
    cases hcomment
  | some parts =>
    rw [hcut] at hcomment
    exact ⟨parts.1, parts.2, rfl, (Option.some.inj hcomment).symm⟩

end CodeConverter.Literal

namespace CodeConverter.Indent

open Text Literal List

variable {c : Conversion} {s : State}

/-- What a line does to the counter of open brackets. -/
theorem Inv.meets_visitLine_brackets (hs : Inv c s) (hcomment : s.inComment = false)
    (hnonneg : 0 ≤ s.brackets)
    {line : Text} (hstarts : startsComment (strip line) = false) :
    Yields (fun t => t.inComment = false ∧ t.brackets =
      if 0 < s.brackets then max (s.brackets + bracketBalance (strip line)) 0
      else max (bracketBalance (splitComment (strip line)).1) 0) (visitLine c s line) := by
  by_cases hblank : (strip line).isEmpty = true
  · rw [visitLine, if_pos hblank]
    refine .ok ⟨hcomment, ?_⟩
    have hnone : bracketBalance [] = 0 := rfl
    have hsplit : (splitComment []).1 = [] := rfl
    rw [isEmpty_iff.mp hblank, hsplit, hnone]
    split_ifs <;> dsimp only <;> omega
  have hfalse : ¬ s.inComment = true := by rw [hcomment]; exact Bool.false_ne_true
  simp only [visitLine, if_neg hblank, if_neg hfalse, hstarts, if_neg Bool.false_ne_true]
  refine .ite (fun hopen => ?_) fun hclosed => .ite (fun hnote => ?_) fun _ => ?_
  · simp only [continuationLine, State.emit]
    refine ((discipline_all c).expression _ _ trivial).bind fun out _ => .ok ⟨hcomment, ?_⟩
    rw [if_pos hopen]
  · simp only [State.emit]
    refine .ok ⟨hcomment, ?_⟩
    obtain ⟨rest, hrest⟩ := isPrefixOf_iff_prefix.mp hnote
    have hsplit : (splitComment (strip line)).1 = [] := by
      rw [← hrest]
      rfl
    have hclosed : ¬ 0 < s.brackets := hclosed
    have hnone : bracketBalance [] = 0 := rfl
    rw [if_neg hclosed, hsplit, hnone]
    dsimp only
    omega
  · have hclosed : ¬ 0 < s.brackets := hclosed
    refine ((hs.meets_settleBlocks_line _).and (meets_settleBlocks_closes c _ _)).bind
      fun t ht => ?_
    obtain ⟨ht, hcloses⟩ := ht
    have hflag : t.inComment = false := by
      rcases hcloses with ⟨-, -, rfl⟩ | ⟨k, _, _, _, _, _, rfl⟩ <;> exact hcomment
    rw [codeLine_eq, if_neg hclosed]
    refine Meets.map
      (((discipline_all c).meets_visit (ht.arrives trivial fun _ _ => trivial)).imp fun r hr => ?_)
    obtain ⟨output, heq⟩ := written_eq c (splitComment (strip line)).2 (classified (strip line)) r
    rw [heq]
    exact ⟨hr.frame.inComment.trans hflag, hr.frame.brackets⟩

/-- The number of brackets that lines leave open, literals and comments aside, never below zero. -/
def openBrackets (lines : List Text) : Int :=
  lines.foldl (fun n line => max (n + bracketChange (outside 0 (strip line))) 0) 0

theorem openBrackets_concat (before : List Text) (line : Text) :
    openBrackets (before ++ [line]) =
    max (openBrackets before + bracketChange (outside 0 (strip line))) 0 := by
  rw [openBrackets, foldl_append]
  rfl

theorem openBrackets_nonneg (lines : List Text) : 0 ≤ openBrackets lines := by
  rcases eq_nil_or_concat' lines with rfl | ⟨before, line, rfl⟩
  · exact Int.le_refl 0
  · rw [openBrackets_concat]
    exact Int.le_max_right _ _

/-- In a source without docstrings whose literals end at the next quote of their kind and whose
lines inside brackets have no comment, the counter of a conversion is the number of open brackets.
The comment split off a line starts outside its literals. -/
theorem brackets_of_run {lines : List Text} (hrun : (machine c).run lines = .ok s)
    (hlegible : ∀ line ∈ lines, Legible (strip line))
    (hcode : ∀ line ∈ lines, startsComment (strip line) = false)
    (hinside : ∀ before line, before ++ [line] <+: lines → 0 < openBrackets before →
    cutOutside 0 (strip line) = none) :
    s.brackets = openBrackets lines ∧ ∀ line ∈ lines, ∀ comment,
    (splitComment (strip line)).2 = some comment →
      ∃ code rest, cutOutside 0 (strip line) = some (code, rest) ∧ comment = strip rest := by
  have hcounted : ∀ before, before <+: lines → Yields
      (fun t => Inv c t ∧ t.inComment = false ∧ t.brackets = openBrackets before)
      ((machine c).run before) := by
    intro before hbefore
    induction before using reverseRecOn with
    | nil => exact .ok ⟨.initial c, rfl, rfl⟩
    | append_singleton before line ih =>
      have hmem : line ∈ lines := hbefore.subset (mem_append_right _ mem_cons_self)
      have hnonneg := openBrackets_nonneg before
      rw [LineMachine.run_concat]
      refine (ih ((prefix_append _ _).trans hbefore)).bind fun t hcounted => ?_
      obtain ⟨ht, hcomment, hbrackets⟩ := hcounted
      have hvisited := ht.meets_visitLine_brackets hcomment (by rwa [hbrackets]) (hcode line hmem)
      refine ((ht.meets_visitLine (discipline_all c) trivial).and hvisited).imp fun u hu =>
        ⟨hu.1, hu.2.1, ?_⟩
      rw [hu.2.2, hbrackets, openBrackets_concat,
        (hlegible line hmem).count_eq hnonneg (hinside before line hbefore)]
  have hwhole := hcounted lines prefix_rfl
  rw [hrun] at hwhole
  exact ⟨hwhole.of_ok.2.2, fun line hline comment hcomment =>
    (hlegible line hline).cutOutside_of_comment hcomment⟩

/-- A call over two lines, with a quoted bracket and a comment behind the first statement. -/
theorem brackets_of_run_call :
    ∃ s, (machine .toJava).run ["f('(',  # a)".toList, "b".toList] = .ok s ∧ s.brackets = 1 := by
  have hok : ((machine .toJava).run ["f('(',  # a)".toList, "b".toList]).isOk = true := by
    decide +kernel
  have hquoted : Legible ('\'' :: ("(".toList ++ '\'' :: ",  # a)".toList)) :=
    .literal rfl (by decide) rfl
      (.code rfl (by decide) (.code rfl (by decide) (.code rfl (by decide) (.comment _))))
  have hlegible : ∀ line ∈ ["f('(',  # a)".toList, "b".toList], Legible (strip line) := by
    rintro line (_ | ⟨_, _ | ⟨_, ⟨⟩⟩⟩)
    · exact .code rfl (by decide) (.code rfl (by decide) hquoted)
    · exact .code rfl (by decide) .nil
  have hinside : ∀ before line, before ++ [line] <+: ["f('(',  # a)".toList, "b".toList] →
      0 < openBrackets before → cutOutside 0 (strip line) = none := by
    intro before line hprefix hopen
    cases before with
    | nil => exact absurd hopen (by decide)
    | cons first before =>
      obtain ⟨rest, hrest⟩ := hprefix
      cases before with
      | nil =>
        obtain rfl : line = "b".toList := (cons.inj (cons.inj hrest).2).1
        decide
      | cons second before => simp at hrest
  cases hrun : (machine .toJava).run ["f('(',  # a)".toList, "b".toList] with
  | error => rw [hrun] at hok; cases hok
  | ok s => exact ⟨s, rfl, (brackets_of_run hrun hlegible (by decide) hinside).1⟩

/-- An escaped quote ends a literal for the scans of a line, so the bracket behind it is counted and
a comment is split off inside the literal. -/
theorem brackets_of_escaped_quote :
    ((machine .toJavaScript).run ["x = 'a\\'('".toList]).map State.brackets = .ok 1 ∧
      openBrackets ["x = 'a\\'('".toList] = 0 ∧
      (splitComment "'a\\'#'").2 = some "'".toList ∧ cutOutside 0 "'a\\'#'" = none := by
  refine ⟨by decide +kernel, by decide, by decide, by decide⟩

end CodeConverter.Indent

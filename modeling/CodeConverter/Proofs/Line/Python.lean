import CodeConverter.Proofs.Line.Call

/-!
# Lines of Python programs

How the headers of conditionals, loops and functions are classified, with the pieces their forms
remember, and that a call has no form.
-/

namespace CodeConverter.Grammar.Python

open Text Pattern Program List

/-- A header with an argument. -/
def argumentLineText (start : String) (argument : Text) : Text :=
  start.toList ++ (' ' :: (argument ++ ":"))

/-- The header of a function. -/
def functionText (name : Text) (parameters : List Text) : Text :=
  "def " ++ (name ++ ('(' :: (join ", " parameters ++ "):")))

variable {argument name arguments : Text} {parameters : List Text}

/-- No colon ends the line behind a part of a header that is not blank. -/
theorem first_colon_none {b : Text} {s : State} (hahead : s.ahead = b ++ ":")
    (hb : ¬ ∀ c ∈ b, isBlank c = true) : first blanks (first ":" (first .atEnd some)) s = none := by
  refine first_eq_none fun piece v hblanks => first_eq_none fun colon w hcolon =>
    first_eq_none fun _ _ hend => ?_
  obtain ⟨hpiece, -⟩ := reads_chars_iff.mp hblanks
  obtain ⟨rfl, -⟩ := reads_literal_iff.mp hcolon
  have htext : b ++ ":" = piece ++ (":" ++ w.ahead) := by
    rw [← hcolon.ahead_eq, ← hblanks.ahead_eq, hahead]
  have hlast :
      w.ahead = [] ∨ w.ahead = ['\n'] := by simpa [State.isEnd] using (reads_atEnd_iff.mp hend).2.2
  rcases hlast with hnil | hbreak
  · rw [hnil] at htext
    exact absurd (append_cancel_right htext ▸ hpiece) hb
  · have hfeed := congrArg getLast? htext
    rw [hbreak] at hfeed
    simp at hfeed

section Headers

variable (hne : argument ≠ []) (hstrip : strip argument = argument) (hline : '\n' ∉ argument)

include hne hstrip hline

/-- The argument of a header is what stands between the gap and the colon. -/
theorem completes_argument :
    Completes (first gap (first (group 1 something) (first blanks (first ":" (first .atEnd some)))))
    (" " ++ (argument ++ ":")) [] [(1, argument)] := by
  obtain ⟨hhead, hlast⟩ := strip_eq_self_iff.mp hstrip
  have hend : Completes (first blanks (first ":" (first .atEnd some))) ":" [(1, argument)]
      [(1, argument)] :=
    @Completes.many _ isBlank [] _ _ _ (Completes.atEnd _).literal (forall_mem_nil _) (by decide)
  refine Completes.many1
    (hend.group_lazy (fun v a b hab hb hahead => first_colon_none hahead fun hblank => ?_)
    fun hahead hnone hk =>
    first_few1 hahead hne (fun c hc => decide_eq_true fun h => hline (h ▸ hc)) hnone hk)
    (by decide) (by decide) fun c hc => ?_
  · obtain ⟨front, d, rfl⟩ := (eq_nil_or_concat' b).resolve_left hb
    have hd := hblank d (by simp)
    rw [hlast d (by simp [hab])] at hd
    cases hd
  · rw [head?_append_of_ne_nil _ hne] at hc
    exact hhead c hc

theorem classify_argumentHeader {after : List LineForm} {kind : LineKind} (before : List LineForm)
    (start : String)
    (hall : all = before ++ ⟨kind, argumentHeader (.literal start.toList)⟩ :: after)
    (hbefore :
    before.all (fun form => (form.pattern.matchStart (argumentLineText start argument)).isNone) =
    true) : (classify all (argumentLineText start argument)).kind = kind ∧
      (classify all (argumentLineText start argument)).group 1 = argument := by
  obtain ⟨u, hu, hgroups⟩ :=
    (completes_argument hne hstrip hline).literal (.start (argumentLineText start argument)) rfl rfl
  have hfirst : first (argumentHeader (.literal start.toList)) some
      (.start (argumentLineText start argument)) = some u := by
    simp only [argumentHeader, first_append]
    exact first_atStart rfl hu
  obtain ⟨hkind, hgroup⟩ := classify_of_preferred before hall hbefore hfirst
  refine ⟨hkind, ?_⟩
  rw [Classified.group, hgroup, hgroups]
  rfl

/-- An `if` header. The guard of the main code is another line, since it has quotes. -/
theorem classify_if (hquotes : ∀ c ∈ argument, Literal.isPlainQuote c = false) :
    (classify all (argumentLineText "if" argument)).kind = .ifHeader ∧
      (classify all (argumentLineText "if" argument)).group 1 = argument := by
  have hbreak : '\n' ∉ argumentLineText "if" argument := by
    simp [argumentLineText, hline]
  have hguard : mainGuardForm.pattern.matchStart (argumentLineText "if" argument) = none := by
    refine Option.eq_none_iff_forall_ne_some.mpr fun m hm => ?_
    have hreads := (of_matchStart hm).1.reads
    simp only [mainGuardForm, append_eq_seq, reads_seq_iff] at hreads
    obtain ⟨_, _, _, hend, ⟨_, _, _, rfl, ⟨_, _, _, rfl, ⟨front, _, _, rfl, -, hchar⟩, -⟩, -⟩, -⟩ :=
      hreads
    obtain ⟨quote, -, rfl, hquote, -⟩ := reads_char_iff.mp hchar
    have hplain : Literal.isPlainQuote quote = true := by
      simpa [Literal.isPlainQuote, among] using hquote
    have hmem : quote ∈ argumentLineText "if" argument := by
      rw [← (whole_eq_of_anchored hm rfl hbreak).1, hend]
      simp
    have hother : ∀ d, Literal.isPlainQuote d = false → quote ≠ d := by
      rintro d hd rfl
      rw [hplain] at hd
      cases hd
    simp [argumentLineText, hother 'i' rfl, hother 'f' rfl, hother ' ' rfl,
      hother ':' rfl] at hmem
    rw [hquotes quote hmem] at hplain
    cases hplain
  refine classify_argumentHeader hne hstrip hline [importForm, decoratorForm, classForm,
    functionForm, mainGuardForm] "if" rfl ?_
  simp only [all_cons, all_nil, hguard]
  rfl

/-- An `elif` header. -/
theorem classify_elif : (classify all (argumentLineText "elif" argument)).kind = .elifHeader ∧
      (classify all (argumentLineText "elif" argument)).group 1 = argument :=
  classify_argumentHeader hne hstrip hline (all.take 6) "elif" rfl rfl

/-- A `while` header. -/
theorem classify_while : (classify all (argumentLineText "while" argument)).kind = .whileHeader ∧
      (classify all (argumentLineText "while" argument)).group 1 = argument :=
  classify_argumentHeader hne hstrip hline (all.take 10) "while" rfl rfl

end Headers

/-- An `else` header. -/
theorem classify_else : (classify all "else:").kind = .elseHeader := rfl

/-- A function header. Its name and parameters are what stands before and between the
parentheses. -/
theorem classify_function (hname : IsName name) (hparameters : ∀ p ∈ parameters, IsIdentifier p) :
    (classify all (functionText name parameters)).kind = .functionHeader ∧
      (classify all (functionText name parameters)).group 1 = name ∧
      (classify all (functionText name parameters)).group 2 = join ", " parameters := by
  have hline : '\n' ∉ join ", " parameters := not_mem_join_names hparameters
  have hclose :
      Completes (first ")" (first blanks (first (maybe ("->" ++ blanks ++ group 3 something))
      (first blanks (first ":" (first .atEnd some)))))) (')' :: ":") [(2, join ", " parameters),
      (1, name)] [(2, join ", " parameters), (1, name)] := by
    intro s hahead hgroups
    obtain ⟨before, ahead, index, captures⟩ := s
    obtain rfl : ahead = ')' :: ":" := hahead
    exact ⟨_, rfl, hgroups⟩
  have hinLine : ∀ c ∈ join ", " parameters, inLine c = true := fun c hc => decide_eq_true fun h =>
    hline (h ▸ hc)
  have hlist := hclose.group_last hinLine (by decide)
  have hword :=
    (@Completes.many _ isBlank [] _ _ _ (hlist.literal (t := "(")) (forall_mem_nil _)
      (by simp [isBlank])).group
    (p := word) fun hahead hk => first_many1 hahead hname.1 hname.2 (by simp; decide) hk
  obtain ⟨u, hu, hgroups⟩ :=
    (@Completes.many1 _ isBlank " " _ _ _ hword (by decide) (by decide)
      hname.head_not_blank).literal (t := "def") (.start (functionText name parameters)) rfl rfl
  have hfirst :
      first functionForm.pattern some (.start (functionText name parameters)) = some u := by
    simp only [functionForm, first_append]
    exact first_atStart rfl (first_maybe_skip rfl hu)
  obtain ⟨hkind, hgroup⟩ :=
    classify_of_preferred (all.take 3) (show all = _ ++ functionForm :: all.drop 4 from rfl)
      rfl hfirst
  simp only [Classified.group, hgroup, hgroups]
  exact ⟨hkind, rfl, rfl⟩

/-- A call has no form, unless it prints, returns or raises. An at sign would start a decorator. -/
theorem classify_call (hname : IsIdentifier name) (hline : '\n' ∉ arguments) (hsign : '@' ∉ name)
    (hprint : name ≠ "print") (hother : name.takeWhile isWord ∉ ["return".toList, "raise".toList]) :
    (classify all (callText name arguments)).kind = .generic := by
  have hnot : name ∉ ["print".toList, "return".toList, "raise".toList] := by
    intro hmem
    rcases mem_cons.mp hmem with rfl | hmem
    · exact hprint rfl
    · rcases mem_pair.mp hmem with rfl | rfl <;> exact hother (by decide)
  have hmarks : ∀ c ∈ name, isMark c = true → (isMark c && c ≠ '@') = true := by
    intro c hc hmark
    simp [hmark, ne_of_mem_of_not_mem hc hsign]
  rw [← append_nil (callText name arguments)]
  exact Grammar.classify_call hname hline (by simp) not_mem_nil hnot hother hmarks rfl rfl

end CodeConverter.Grammar.Python

import CodeConverter.Proofs.Brace.Layout

/-!
# Block comments of a brace source

A conversion takes a block comment for open if the last delimiter it has read is an opening one,
wherever that stands. A reader that knows literals and line comments is of the same opinion as long
as no opening delimiter stands in one of those and no two delimiters share a character. So a source
without opening delimiters has all its code classified, but one in a literal is enough to silence
the rest of the source.
-/

namespace CodeConverter.Brace

open Text List Bool

/-- How a language quotes its literals, and which of them may go on over the end of a line. -/
structure Quoting where
  opens : Char → Bool
  spans : Char → Bool

/-- Where in a source a reader is. -/
inductive Place where
  | code
  /-- In code, after a slash that may start a comment. -/
  | slash
  | literal (quote : Char)
  /-- In a literal, after a backslash. -/
  | escape (quote : Char)
  | lineComment
  | comment
  /-- In a block comment, after an asterisk that may end it. -/
  | star
  deriving DecidableEq

namespace Place

/-- Whether the reader is inside a block comment. -/
def isComment : Place → Bool
  | .comment => true
  | .star => true
  | _ => false

/-- The place after a character of code that starts no comment. -/
def ofCode (q : Quoting) (c : Char) : Place :=
  if q.opens c then .literal c else .code

/-- The place after one more character of a line. -/
def step (q : Quoting) : Place → Char → Place
  | .code, c => if c = '/' then .slash else ofCode q c
  | .slash, c => if c = '*' then .comment else if c = '/' then .lineComment else ofCode q c
  | .literal quote, c => if c = '\\' then .escape quote else if c = quote then .code
      else .literal quote
  | .escape quote, _ => .literal quote
  | .lineComment, _ => .lineComment
  | .comment, c => if c = '*' then .star else .comment
  | .star, c => if c = '/' then .code else if c = '*' then .star else .comment

/-- The place at which the next line starts. -/
def lineEnd (q : Quoting) : Place → Place
  | .literal quote => if q.spans quote then .literal quote else .code
  | .escape quote => if q.spans quote then .literal quote else .code
  | .comment => .comment
  | .star => .comment
  | _ => .code

/-- The place after some lines. -/
def after (q : Quoting) (p : Place) (lines : List Text) : Place :=
  lines.foldl (fun p line => lineEnd q (line.foldl (step q) p)) p

end Place

/-- Whether an opening delimiter starts with the first character of a text. -/
def opensAt (t : Text) : Bool :=
  "/*".toList.isPrefixOf t

/-- Whether a closing delimiter starts with the first character of a text. -/
def closesAt (t : Text) : Bool :=
  "*/".toList.isPrefixOf t

/-- Whether the last delimiter of a text is an opening one. Without a delimiter the given answer
stays. -/
def lastOpens (opened : Bool) : Text → Bool
  | [] => opened
  | c :: t =>
      lastOpens (if opensAt (c :: t) then true else if closesAt (c :: t) then false else opened) t

/-- Whether the opening delimiters of a line stand in code or block comments and no delimiters
share a character. -/
def Place.isClear (q : Quoting) (p : Place) : Text → Bool
  | [] => true
  | c :: t =>
    (!opensAt (c :: t) || p = .code || p = .comment) && (!closesAt (c :: t) || p ≠ .slash) &&
      isClear q (step q p c) t

/-- Whether all lines are clear, each read from the place where it starts. -/
def Place.areClear (q : Quoting) (p : Place) : List Text → Bool
  | [] => true
  | line :: rest => isClear q p line && areClear q (after q p [line]) rest

/-- A delimiter of two characters starts with the first character of a text. -/
theorem isPrefixOf_pair (a b c : Char) (t : Text) :
    [a, b].isPrefixOf (c :: t) = (c == a && t.head? == some b) := by
  rw [isPrefixOf, beq_comm (a := a)]
  cases t with
  | nil => rfl
  | cons d t =>
    rw [isPrefixOf, isPrefixOf, Bool.and_true, beq_comm (a := b)]
    rfl

theorem opensAt_cons (c : Char) (t : Text) : opensAt (c :: t) = (c == '/' && t.head? == some '*') :=
  isPrefixOf_pair '/' '*' c t

theorem closesAt_cons (c : Char) (t : Text) :
    closesAt (c :: t) = (c == '*' && t.head? == some '/') :=
  isPrefixOf_pair '*' '/' c t

/-- The scan for comments agrees with the last delimiter of the text. -/
theorem commentAfter_eq (opened : Bool) (t : Text) :
    commentAfter opened t = lastOpens opened t := by
  induction t generalizing opened with
  | nil => rfl
  | cons c t ih =>
    have hone : (opensAt (c :: t) && closesAt (c :: t)) = false := by
      rw [opensAt_cons, closesAt_cons]
      by_cases hc : c = '/' <;> simp [hc]
    rw [lastOpens, ← ih]
    have hopening : lastIndex? "/*" (c :: t) = ((lastIndex? "/*" t).map (· + 1)).or
        (if opensAt (c :: t) then some 0 else none) := by
      rw [lastIndex?]
      cases lastIndex? "/*" t <;> rfl
    have hclosing : lastIndex? "*/" (c :: t) = ((lastIndex? "*/" t).map (· + 1)).or
        (if closesAt (c :: t) then some 0 else none) := by
      rw [lastIndex?]
      cases lastIndex? "*/" t <;> rfl
    unfold commentAfter
    rw [hopening, hclosing]
    -- A later delimiter of either kind outweighs one that starts here.
    cases lastIndex? "/*" t <;> cases lastIndex? "*/" t <;>
      cases hopens : opensAt (c :: t) <;> cases hcloses : closesAt (c :: t) <;> simp_all

variable {t line : Text} {lines : List Text}

theorem lastOpens_of_not_includes (h : includes t "/*" = false) : lastOpens false t = false := by
  induction t with
  | nil => rfl
  | cons c t ih =>
    rw [includes, or_eq_false_iff] at h
    rw [lastOpens, show opensAt (c :: t) = false from h.1]
    simpa using ih h.2

namespace Place

variable {q : Quoting} {p : Place}

/-- The delimiter characters already read that may be the start of a delimiter. -/
def carried : Place → Text
  | .slash => "/"
  | .star => "*"
  | _ => []

/-- One character of a clear line. -/
theorem lastOpens_step {c : Char} (hopens : opensAt (c :: t) = true → p = .code ∨ p = .comment)
    (hcloses : closesAt (c :: t) = true → p ≠ .slash) :
    lastOpens p.isComment (p.carried ++ c :: t) =
      lastOpens (step q p c).isComment ((step q p c).carried ++ t) := by
  have hcons : ∀ (opened : Bool) (c : Char) (t : Text), lastOpens opened (c :: t) =
      lastOpens (if c = '/' ∧ t.head? = some '*' then true else
        if c = '*' ∧ t.head? = some '/' then false else opened) t := by
    intro opened c t
    rw [lastOpens, opensAt_cons, closesAt_cons]
    simp
  have hcode : ∀ c, (ofCode q c).isComment = false ∧ (ofCode q c).carried = [] := by
    intro c
    unfold ofCode
    split <;> exact ⟨rfl, rfl⟩
  rw [opensAt_cons] at hopens
  rw [closesAt_cons] at hcloses
  cases p
  case literal quote =>
    have hnext : (step q (.literal quote) c).isComment = false ∧
        (step q (.literal quote) c).carried = [] := by
      simp only [step]
      split
      · exact ⟨rfl, rfl⟩
      · split <;> exact ⟨rfl, rfl⟩
    have hnone : ¬(c = '/' ∧ t.head? = some '*') := by simpa using hopens
    rw [hnext.1, hnext.2]
    show lastOpens false (c :: t) = lastOpens false t
    rw [hcons, if_neg hnone, ite_self]
  -- Elsewhere only the characters of the delimiters matter.
  all_goals by_cases hslash : c = '/'
  all_goals by_cases hstar : c = '*'
  all_goals simp_all [step, carried, isComment]

theorem isComment_foldl (h : isClear q p t = true) :
    (t.foldl (step q) p).isComment = lastOpens p.isComment (p.carried ++ t) := by
  induction t generalizing p with
  | nil => cases p <;> rfl
  | cons c t ih =>
    rw [isClear, and_eq_true, and_eq_true] at h
    obtain ⟨⟨hopens, hcloses⟩, hrest⟩ := h
    rw [foldl_cons, ih hrest, lastOpens_step]
    · intro hat
      simpa [hat] using hopens
    · intro hat
      simpa [hat] using hcloses

theorem lineEnd_spec (q : Quoting) (p : Place) :
    (lineEnd q p).isComment = p.isComment ∧ (lineEnd q p).carried = [] := by
  cases p
  case literal quote | escape quote =>
    show (if q.spans quote then Place.literal quote else .code).isComment = _ ∧
      (if q.spans quote then Place.literal quote else .code).carried = []
    split <;> exact ⟨rfl, rfl⟩
  all_goals exact ⟨rfl, rfl⟩

theorem isComment_after (hcarried : p.carried = []) (h : areClear q p lines = true) :
    (after q p lines).isComment = lines.foldl lastOpens p.isComment := by
  induction lines generalizing p with
  | nil => rfl
  | cons line lines ih =>
    rw [areClear, and_eq_true] at h
    have hline := isComment_foldl h.1
    obtain ⟨hsame, hnone⟩ := lineEnd_spec q (line.foldl (step q) p)
    rw [hcarried, nil_append, ← hsame] at hline
    rw [foldl_cons, ← hline]
    exact ih hnone h.2

end Place

variable (c : Conversion) (s : State)

theorem meets_visitStripped_inComment (line : Text) :
    Yields (fun t => t.inComment = lastOpens s.inComment line) (visitStripped c s line) := by
  unfold visitStripped
  refine .ite (fun hblank => .ok ?_) fun _ => ?_
  · rw [isEmpty_iff.mp hblank]
    rfl
  · refine .ite (fun _ => .ok (commentAfter_eq _ _)) fun hcode => ?_
    have hnone : lastOpens s.inComment line = s.inComment := by
      rw [not_eq_true, or_eq_false_iff] at hcode
      rw [show s.inComment = false from hcode.1, lastOpens_of_not_includes hcode.2]
    rw [hnone]
    cases lineComment? c line with
    | some comment => exact .ok rfl
    | none => exact (meets_visitPieces_marks c _ _).imp fun _ ht => ht.1

theorem meets_visitLine_inComment (line : Text) :
    Yields (fun t => t.inComment = lastOpens s.inComment (codeOf c line)) (visitLine c s line) := by
  unfold visitLine codeOf
  by_cases hphp : c = .phpToPython
  · rw [if_pos hphp, if_pos hphp]
    refine .ite (fun htag => .ok ?_) fun _ => meets_visitStripped_inComment c s _
    rw [isEmpty_iff.mp (and_eq_true_iff.mp htag).2]
    rfl
  · rw [if_neg hphp, if_neg hphp]
    exact meets_visitStripped_inComment c s _

theorem meets_run_inComment (lines : List Text) : Yields
    (fun t => t.inComment = (lines.map (codeOf c)).foldl lastOpens s.inComment)
    (lines.foldlM (visitLine c) s) := by
  induction lines generalizing s with
  | nil => exact .ok rfl
  | cons line lines ih =>
    rw [foldlM_cons]
    refine (meets_visitLine_inComment c s line).bind fun t ht => (ih t).imp fun u hu => ?_
    rw [hu, ht]
    rfl

theorem foldl_lastOpens_of_not_includes (h : ∀ line ∈ lines, includes line "/*" = false) :
    lines.foldl lastOpens false = false := by
  induction lines with
  | nil => rfl
  | cons line lines ih =>
    rw [forall_mem_cons] at h
    rw [foldl_cons, lastOpens_of_not_includes h.1]
    exact ih h.2

theorem visitLine_eq_visitStripped (hblank : codeOf c line ≠ []) :
    visitLine c s line = visitStripped c s (codeOf c line) := by
  unfold codeOf at hblank ⊢
  unfold visitLine
  by_cases hphp : c = .phpToPython
  · rw [if_pos hphp] at hblank
    rw [if_pos hphp, if_pos hphp]
    refine if_neg fun htag => hblank ?_
    rw [isEmpty_iff.mp (and_eq_true_iff.mp htag).2]
    rfl
  · rw [if_neg hphp, if_neg hphp]

theorem visitLine_of_code (hcomment : s.inComment = false) (hblank : codeOf c line ≠ [])
    (hopens : includes (codeOf c line) "/*" = false)
    (hline : lineComment? c (codeOf c line) = none) :
    visitLine c s line =
      visitPieces c { s with hasContent := true } (Block.split (codeOf c line)) := by
  have hcode : ((codeOf c line).isEmpty || s.inComment || includes (codeOf c line) "/*" ||
      (lineComment? c (codeOf c line)).isSome) = false := by
    rw [hcomment, hopens, hline, isEmpty_eq_false_iff.mpr hblank]
    rfl
  rw [visitLine_eq_visitStripped c s hblank]
  rcases visitStripped_cases c s (codeOf c line) with ⟨hpassed, -⟩ | ⟨-, heq⟩
  · rw [hcode] at hpassed
    cases hpassed
  · exact heq

/-- After any lines a comment is open if the last delimiter in their code is an opening one. On
clear lines a reader that knows literals and line comments agrees with that, and without opening
delimiters every line of code is classified. -/
theorem inComment_of_run (q : Quoting) {c : Conversion} {lines : List Text} {s : State}
    (h : (machine c).run lines = .ok s) :
    s.inComment = (lines.map (codeOf c)).foldl lastOpens false ∧
    (Place.areClear q .code (lines.map (codeOf c)) = true →
      s.inComment = (Place.after q .code (lines.map (codeOf c))).isComment) ∧
    ((∀ line ∈ lines, includes (codeOf c line) "/*" = false) →
      s.inComment = false ∧ ∀ line, codeOf c line ≠ [] → includes (codeOf c line) "/*" = false →
        lineComment? c (codeOf c line) = none →
        visitLine c s line =
          visitPieces c { s with hasContent := true } (Block.split (codeOf c line))) := by
  have hlast : s.inComment = (lines.map (codeOf c)).foldl lastOpens false := by
    have hrun := meets_run_inComment c State.initial lines
    rw [show lines.foldlM (visitLine c) State.initial = .ok s from h] at hrun
    exact hrun.of_ok
  refine ⟨hlast, fun hclear => ?_, fun hnone => ?_⟩
  · rw [hlast, Place.isComment_after rfl hclear]
    rfl
  · have hclosed : s.inComment = false := by
      rw [hlast]
      refine foldl_lastOpens_of_not_includes fun code hcode => ?_
      obtain ⟨line, hline, rfl⟩ := mem_map.mp hcode
      exact hnone line hline
    exact ⟨hclosed, fun line => visitLine_of_code c s hclosed⟩

/-- Literals in single and double quotes that end with their line. -/
def Quoting.oneLine : Quoting :=
  ⟨fun c => c = '"' || c = '\'', fun _ => false⟩

/-- A literal with delimiters, a line comment and a block comment that stays open. -/
theorem inComment_of_run_open :
    ∃ s, (machine .javaToJavaScript).run ["x = \"// \\\" */\";".toList, "// a".toList,
    "y(); /* b".toList] = .ok s ∧ Place.areClear .oneLine .code
        (["x = \"// \\\" */\";".toList, "// a".toList, "y(); /* b".toList].map
        (codeOf .javaToJavaScript)) = true ∧ s.inComment = true := by
  obtain ⟨s, hrun⟩ : ∃ s, (machine .javaToJavaScript).run
      ["x = \"// \\\" */\";".toList, "// a".toList, "y(); /* b".toList] = .ok s := ⟨_, rfl⟩
  have hclear : Place.areClear .oneLine .code
      (["x = \"// \\\" */\";".toList, "// a".toList, "y(); /* b".toList].map
      (codeOf .javaToJavaScript)) = true := by
    decide
  exact ⟨s, hrun, hclear, (inComment_of_run .oneLine hrun).2.1 hclear⟩

/-- An opening delimiter in a literal: the reader is in code after it, but the comment taken for
open keeps the next line from being converted. -/
theorem comment_open_after_literal :
    (∃ s, (machine .javascriptToPython).run ["x = \"/*\";"] = .ok s ∧ s.inComment = true) ∧
      Place.after .oneLine .code ["x = \"/*\";"] = .code ∧
      (machine .javascriptToPython).convert "x = \"/*\";\ny();" = .ok "x = \"\"\"\"\";\ny();" ∧
      (machine .javascriptToPython).convert "x = \"\";\ny();" = .ok "x = \"\"\ny()" := by
  refine ⟨⟨_, rfl, rfl⟩, by decide, by decide +kernel, by decide +kernel⟩

end CodeConverter.Brace

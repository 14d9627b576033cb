import CodeConverter.Indent.Scan
import CodeConverter.Proofs.Expression.Total
import CodeConverter.Proofs.Line.Python
import CodeConverter.Proofs.Program.Tree

/-!
# Programs laid out by indentation

A program tree is laid out by choosing the width of every block, wider than the one around it, and
blanks and tabs of that width for every line. The lines are code without quotes and comments, and
each closes the brackets it opens.
-/

namespace CodeConverter.Indent

open Text Program Literal List Grammar.Python

variable {c : Char}

/-- The column reached by blanks, tabs reaching to multiples of four. -/
def column : Nat → Text → Nat
  | n, [] => n
  | n, c :: t => column (if c = '\t' then n / 4 * 4 + 4 else n + 1) t

/-- Blanks and tabs that reach a column. -/
structure Lead (width : Nat) (lead : Text) : Prop where
  blank : ∀ c ∈ lead, c = ' ' ∨ c = '\t'
  reaches : column 0 lead = width

/-- The header of a block. -/
def headerText : Opening → Text
  | .loop condition => argumentLineText "while" condition
  | .function name parameters => functionText name parameters

mutual

/-- The lines of a statement in a block of the given width. -/
inductive TreeLaid : Nat → Program.Tree Opening → List Text → Prop
  | call {width : Nat} {lead name arguments : Text} : Lead width lead →
      TreeLaid width (.call name arguments) [lead ++ callText name arguments]
  | block {width inner : Nat} {lead : Text} {header : Opening} {body : Forest Opening}
      {ls : List Text} : Lead width lead → width < inner → ForestLaid inner body ls →
      TreeLaid width (.block header body) ((lead ++ headerText header) :: ls)
  | branch {width inner : Nat} {lead condition : Text} {body : Forest Opening}
      {rest : Branches Opening} {ls more : List Text} :
      Lead width lead → width < inner → ForestLaid inner body ls → BranchesLaid width rest more →
      TreeLaid width (.branch condition body rest)
        ((lead ++ argumentLineText "if" condition) :: (ls ++ more))

/-- The lines of a block of the given width. -/
inductive ForestLaid : Nat → Forest Opening → List Text → Prop
  | nil {width : Nat} : ForestLaid width .nil []
  | cons {width : Nat} {first : Program.Tree Opening} {rest : Forest Opening}
      {ls more : List Text} :
      TreeLaid width first ls → ForestLaid width rest more →
      ForestLaid width (.cons first rest) (ls ++ more)

/-- The lines of the other blocks of a conditional chain. -/
inductive BranchesLaid : Nat → Branches Opening → List Text → Prop
  | done {width : Nat} : BranchesLaid width .done []
  | elseIf {width inner : Nat} {lead condition : Text} {body : Forest Opening}
      {rest : Branches Opening} {ls more : List Text} :
      Lead width lead → width < inner → ForestLaid inner body ls → BranchesLaid width rest more →
      BranchesLaid width (.elseIf condition body rest)
        ((lead ++ argumentLineText "elif" condition) :: (ls ++ more))
  | otherwise {width inner : Nat} {lead : Text} {body : Forest Opening} {ls : List Text} :
      Lead width lead → width < inner → ForestLaid inner body ls →
      BranchesLaid width (.otherwise body) ((lead ++ "else:") :: ls)

end

/-- The text of a condition or of arguments: no quotes, brackets, comments, line feeds and null
characters, and not more backticks than literals can be counted. -/
structure IsPlain (t : Text) : Prop where
  chars : ∀ c ∈ t, c ∉ "\x27\x22()[]{}#\n\x00".toList
  backticks : t.countP isQuote ≤ capacity

/-- A condition is not empty and has no blanks at its ends. -/
structure IsCondition (t : Text) : Prop extends IsPlain t where
  nonempty : t ≠ []
  stripped : strip t = t

/-- The programs that are laid out: calls other than those that print, return or raise, and blocks
that are not empty. The name of a call is any identifier that does not start with a word that
returns or raises, the name of a function has word characters only. -/
def rules : Rules Opening where
  call name arguments :=
    IsIdentifier name ∧ '@' ∉ name ∧ name ≠ "print" ∧
      name.takeWhile isWord ∉ ["return".toList, "raise".toList] ∧ IsPlain arguments
  condition := IsCondition
  header _ := fun
    | .loop condition => IsCondition condition
    | .function name parameters => IsName name ∧ ∀ p ∈ parameters, IsIdentifier p ∧
        Parameter.isReceiver p = false
  body body := body ≠ .nil

/-- How JavaScript writes a program. -/
def javascript : Target Opening where
  size := 2
  call name arguments := do
    return (← State.initial.expression .toJavaScript (callText name arguments)) ++ ";"
  condition t := State.initial.condition .toJavaScript t
  header := fun
    | .loop condition =>
        do return some ("while " ++ (← State.initial.condition .toJavaScript condition))
    | .function name parameters =>
        return some ("function " ++ name ++ "(" ++ join ", " parameters ++ ")")

variable {w : Nat} {t lead : Text}

/-- The column reached by the lead of a line is its width. -/
theorem width_lead (hlead : Lead w lead) (hhead : ∀ c ∈ t.head?, isBlank c = false) :
    width (lead ++ t) = w := by
  suffices h : ∀ n, n + ((expandTabs 4 n (lead ++ t)).takeWhile isBlank).length = column n lead by
    rw [width, ← hlead.reaches, ← h 0, Nat.zero_add]
  obtain ⟨hblank, -⟩ := hlead
  induction lead with
  | nil =>
    intro n
    cases t with
    | nil => rfl
    | cons c t =>
      have hc : isBlank c = false := hhead c rfl
      have hother : ∀ d, isBlank d = true → c ≠ d := by
        rintro d hd rfl
        rw [hc] at hd
        cases hd
      simp [expandTabs, hother '\t' (by decide), hother '\n' (by decide), hother '\r' (by decide),
        hc, column]
  | cons d lead ih =>
    intro n
    have hrest := ih fun c hc => hblank c (mem_cons_of_mem _ hc)
    rcases hblank d mem_cons_self with rfl | rfl
    · show n + ((' ' :: expandTabs 4 (n + 1) (lead ++ t)).takeWhile isBlank).length =
        column (n + 1) lead
      rw [takeWhile_cons_of_pos (by decide), length_cons, ← hrest (n + 1)]
      omega
    · show n + ((replicate (4 - n % 4) ' ' ++ expandTabs 4 (n + (4 - n % 4)) (lead ++ t)).takeWhile
        isBlank).length = column (n / 4 * 4 + 4) lead
      have hfill : ∀ c ∈ replicate (4 - n % 4) ' ', isBlank c = true := by
        intro c hc
        rw [eq_of_mem_replicate hc]
        decide
      have hcolumn : n / 4 * 4 + 4 = n + (4 - n % 4) := by omega
      rw [takeWhile_append_of_pos hfill, length_append, length_replicate, hcolumn, ← hrest]
      omega

/-- A line of code without quotes and comments that closes the brackets it opens. -/
structure IsCode (t : Text) : Prop where
  nonempty : t ≠ []
  stripped : strip t = t
  note : '#' ∉ t
  quotes : ∀ c ∈ t, isPlainQuote c = false
  balanced : bracketBalance t = 0

theorem cutComment_eq_none (hnote : '#' ∉ t) (hquotes : ∀ c ∈ t, isPlainQuote c = false) :
    cutComment none t = none := by
  induction t with
  | nil => rfl
  | cons c t ih =>
    rw [mem_cons, not_or] at hnote
    have hquote : quoteAfter isPlainQuote none c = none := by
      rw [quoteAfter, hquotes c mem_cons_self]
      rfl
    rw [cutComment, if_neg (Ne.symm hnote.1), hquote, ih hnote.2 fun d hd =>
      hquotes d (mem_cons_of_mem _ hd)]
    rfl

/-- A character that is no quote, no bracket and starts no comment. -/
def isNeutral (c : Char) : Bool :=
  !"\x27\x22()[]{}#".toList.contains c

theorem of_isNeutral (h : isNeutral c = true) :
    isPlainQuote c = false ∧ depthChange c = 0 ∧ c ≠ '#' := by
  have hother : ∀ d ∈ "\x27\x22()[]{}#".toList, c ≠ d := by
    rintro d hd rfl
    simp only [isNeutral, contains_iff_mem.mpr hd] at h
    cases h
  simp [isPlainQuote, depthChange, isOpening, isClosing, hother '\x27' (by decide),
    hother '\x22' (by decide),
    hother '(' (by decide), hother ')' (by decide), hother '[' (by decide), hother ']' (by decide),
    hother '{' (by decide), hother '}' (by decide), hother '#' (by decide)]

theorem isNeutral_of_isIdentifier (h : IsIdentifier t) (hc : c ∈ t) : isNeutral c = true := by
  have hall : ∀ d ∈ "\x27\x22()[]{}#".toList, (isWord d || isMark d) = false := by decide
  rw [isNeutral, Bool.not_eq_true', Bool.eq_false_iff]
  intro hmem
  exact h.ne hc (hall c (contains_iff_mem.mp hmem)) rfl

theorem bracketBalance_neutral (h : ∀ c ∈ t, isNeutral c = true) (u : Text) :
    bracketBalance (t ++ u) = bracketBalance u := by
  induction t with
  | nil => rfl
  | cons c t ih =>
    obtain ⟨hquote, hdepth, -⟩ := of_isNeutral (h c mem_cons_self)
    have hafter : quoteAfter isPlainQuote none c = none := by
      rw [quoteAfter, hquote]
      rfl
    have hrest := ih fun d hd => h d (mem_cons_of_mem _ hd)
    rw [bracketBalance] at hrest ⊢
    rw [cons_append, bracketBalanceFrom, hafter, hdepth, hrest, Int.zero_add]

theorem IsCode.of_neutral (hne : t ≠ []) (hstrip : strip t = t) (h : ∀ c ∈ t, isNeutral c = true) :
    IsCode t where
  nonempty := hne
  stripped := hstrip
  note := fun hmem => (of_isNeutral (h _ hmem)).2.2 rfl
  quotes := fun c hc => (of_isNeutral (h c hc)).1
  balanced := by
    have hall := bracketBalance_neutral h []
    rwa [append_nil] at hall

/-- Neutral characters with a pair of parentheses among them are code. -/
theorem IsCode.of_call (front inside rest : Text) (hne : front ≠ [])
    (ht : t = front ++ '(' :: (inside ++ ')' :: rest))
    (hstrip : strip t = t) (hfront : ∀ c ∈ front, isNeutral c = true)
    (hinside : ∀ c ∈ inside, isNeutral c = true)
    (hrest : ∀ c ∈ rest, isNeutral c = true) : IsCode t := by
  have hchars : ∀ c ∈ t, isNeutral c = true ∨ c = '(' ∨ c = ')' := by
    intro c hc
    simp only [ht, mem_append, mem_cons] at hc
    rcases hc with hc | hc | hc | hc | hc
    · exact .inl (hfront c hc)
    · exact .inr (.inl hc)
    · exact .inl (hinside c hc)
    · exact .inr (.inr hc)
    · exact .inl (hrest c hc)
  refine ⟨by rw [ht]; simp [hne], hstrip, fun hmem => ?_, fun c hc => ?_, ?_⟩
  · rcases hchars _ hmem with hc | hc | hc
    · exact (of_isNeutral hc).2.2 rfl
    · cases hc
    · cases hc
  · rcases hchars c hc with hc | rfl | rfl
    · exact (of_isNeutral hc).1
    · rfl
    · rfl
  · have hend : bracketBalance rest = 0 := by
      have hall := bracketBalance_neutral hrest []
      rwa [append_nil] at hall
    have hclosing : bracketBalance (')' :: rest) = -1 + bracketBalance rest := rfl
    have hopening : bracketBalance ('(' :: (inside ++ ')' :: rest)) =
        1 + bracketBalance (inside ++ ')' :: rest) := rfl
    rw [ht, bracketBalance_neutral hfront, hopening, bracketBalance_neutral hinside, hclosing, hend]
    rfl

namespace IsPlain

theorem neutral (h : IsPlain t) : ∀ c ∈ t, isNeutral c = true := by
  intro c hc
  have hother : c ∉ "\x27\x22()[]{}#".toList :=
    fun hmem => h.chars c hc (mem_append_left "\n\x00".toList hmem)
  rw [isNeutral, Bool.not_eq_true', Bool.eq_false_iff]
  exact fun hmem => hother (contains_iff_mem.mp hmem)

theorem line (h : IsPlain t) : '\n' ∉ t := fun hmem => h.chars _ hmem (by decide)

theorem moderate (h : IsPlain t) : Moderate t where
  null := fun hmem => h.chars _ hmem (by decide)
  quotes := by
    have hbrace : t.count '{' = 0 := count_eq_zero.mpr fun hmem => h.chars _ hmem (by decide)
    rw [hbrace, Nat.mul_zero, Nat.add_zero]
    exact h.backticks

end IsPlain

section Texts

variable {name arguments condition : Text} {parameters : List Text}

theorem isCode_callText (hname : IsIdentifier name) (harguments : IsPlain arguments) :
    IsCode (callText name arguments) := by
  refine .of_call name arguments [] hname.1 rfl ?_ (fun c hc => isNeutral_of_isIdentifier hname hc)
    harguments.neutral (forall_mem_nil _)
  refine strip_eq_self_iff.mpr ⟨fun c hc => ?_, fun c hc => ?_⟩
  · obtain ⟨first, rest, rfl⟩ := exists_cons_of_ne_nil hname.1
    cases hc
    exact hname.not_blank _ mem_cons_self
  · have hlast : (callText name arguments).getLast? = some ')' := by
      rw [callText, ← cons_append, ← append_assoc]
      exact getLast?_concat
    rw [hlast] at hc
    cases hc
    decide

theorem moderate_callText (hname : IsIdentifier name) (harguments : IsPlain arguments) :
    Moderate (callText name arguments) where
  null := by
    have hnull := hname.not_mem (d := '\x00') (by decide)
    simp [callText, hnull, harguments.moderate.null]
  quotes := by
    have hquotes : name.countP isQuote = 0 :=
      countP_eq_zero.mpr fun c hc => by simp [(hname.isEntry.plain c hc).2.2]
    have hbraces : name.count '{' = 0 := count_eq_zero.mpr (hname.not_mem (by decide))
    have hmore := harguments.moderate.quotes
    simp only [callText, countP_append, countP_cons, count_append, count_cons, hquotes, hbraces]
    simpa [isQuote] using hmore

theorem isCode_argumentLineText (start : String) (hstart : IsName start.toList)
    (h : IsCondition condition) : IsCode (argumentLineText start condition) := by
  obtain ⟨first, rest, hfirst⟩ := exists_cons_of_ne_nil hstart.1
  refine .of_neutral ?_ (strip_eq_self_iff.mpr ⟨fun c hc => ?_, fun c hc => ?_⟩) fun c hc => ?_
  · simp [argumentLineText]
  · rw [argumentLineText, hfirst] at hc
    cases hc
    exact isBlank_eq_false_of_isWord (hstart.2 _ (hfirst ▸ mem_cons_self))
  · have hlast : (argumentLineText start condition).getLast? = some ':' := by
      rw [argumentLineText, ← cons_append, ← append_assoc]
      exact getLast?_concat
    rw [hlast] at hc
    cases hc
    decide
  · simp only [argumentLineText, mem_append, mem_cons] at hc
    rcases hc with hc | rfl | hc | hc
    · exact isNeutral_of_isIdentifier hstart.isIdentifier hc
    · decide
    · exact h.neutral c hc
    · obtain rfl : c = ':' := by simpa using hc
      decide

/-- The header of a function is a line of code. -/
theorem isCode_functionText (hname : IsName name) (hparameters : ∀ p ∈ parameters, IsIdentifier p) :
    IsCode (functionText name parameters) := by
  refine .of_call ("def " ++ name) (join ", " parameters) ":" (by simp) ?_
    (strip_eq_self_iff.mpr ⟨fun c hc => ?_, fun c hc => ?_⟩) (fun c hc => ?_) (fun c hc => ?_)
    (by decide)
  · simp [functionText]
  · cases hc
    decide
  · have hlast : (functionText name parameters).getLast? = some ':' := by
      have hconcat : functionText name parameters =
          ("def " ++ name ++ '(' :: (join ", " parameters ++ ")")) ++ [':'] := by
        simp [functionText]
      rw [hconcat, getLast?_concat]
    rw [hlast] at hc
    cases hc
    decide
  · rcases mem_append.mp hc with hc | hc
    · exact (show ∀ c ∈ "def ".toList, isNeutral c = true by decide) c hc
    · exact isNeutral_of_isIdentifier hname.isIdentifier hc
  · rcases mem_join hc with hc | ⟨p, hp, hc⟩
    · exact (show ∀ c ∈ ", ".toList, isNeutral c = true by decide) c hc
    · exact isNeutral_of_isIdentifier (hparameters p hp) hc

end Texts

end CodeConverter.Indent

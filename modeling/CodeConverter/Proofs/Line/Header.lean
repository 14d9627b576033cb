import CodeConverter.Grammar.CFamily
import CodeConverter.Proofs.Line.Classified
import CodeConverter.Proofs.Program.Layout

/-!
# Headers of brace languages

A header is classified in the same way with and without its brace. What its parentheses hold is
remembered whole, up to the last parenthesis of the line.
-/

namespace CodeConverter.Grammar

open Text Pattern Program List

/-- What follows a header on its line: nothing, or its brace. -/
inductive IsTail : Text → Prop where
  | bare : IsTail []
  | brace : IsTail " \x7b"

variable {before : Option Char} {piece inside tail : Text} {groups : List (Nat × Text)}
    {grammar after : List LineForm}

theorem IsTail.not_mem (h : IsTail tail) {d : Char} (hblank : d ≠ ' ') (hbrace : d ≠ '{') :
    d ∉ tail := by
  cases h with
  | bare => exact not_mem_nil
  | brace => simp [hblank, hbrace]

/-- The end of a header is read to the end of the line. -/
theorem completes_headerEnd (htail : IsTail tail) (groups : List (Nat × Text)) :
    Completes (first headerEnd some) tail groups groups := by
  intro s hahead hgroups
  obtain ⟨before, ahead, index, captures⟩ := s
  obtain rfl : ahead = tail := hahead
  cases htail <;> exact ⟨_, rfl, hgroups⟩

/-- The parenthesis that ends a header is the last one, so what it encloses is remembered whole. -/
theorem completes_parentheses (n : Nat) {lead : Text} (hlead : Blank lead) (hinside : '\n' ∉ inside)
    (htail : IsTail tail) (groups : List (Nat × Text)) :
    Completes
    (first blanks (first "(" (first (group n anything) (first ")" (first headerEnd some)))))
      (lead ++ ("(" ++ (inside ++ ')' :: tail))) groups ((n, inside) :: groups) := by
  have hinLine : ∀ c ∈ inside, inLine c = true :=
    fun c hc => decide_eq_true fun h => hinside (h ▸ hc)
  have hclose : Completes (first ")" (first headerEnd some)) (')' :: tail) ((n, inside) :: groups)
      ((n, inside) :: groups) :=
    (completes_headerEnd htail _).literal
  exact (hclose.group_last hinLine (htail.not_mem (by decide) (by decide))).literal.many hlead
    (by simp [isBlank])

theorem conditionText_append (start : String) (condition tail : Text) :
    conditionText start condition ++ tail = start.toList ++
    ([' '] ++ '(' :: (condition ++ ')' :: tail)) := by
  simp [conditionText]

theorem blank_space : Blank [' '] := by
  unfold Blank
  decide

section Conditions

variable (hinside : '\n' ∉ inside) (htail : IsTail tail)

include hinside htail

/-- A header with a condition in parentheses. -/
theorem classify_conditionHeader {kind : LineKind} (before : List LineForm) (start : String)
    (hgrammar : grammar = before ++ ⟨kind, conditionHeader (.literal start.toList)⟩ :: after)
    (hbefore :
    before.all (fun form => (form.pattern.matchStart (conditionText start inside ++ tail)).isNone) =
    true) : (classify grammar (conditionText start inside ++ tail)).kind = kind ∧
      (classify grammar (conditionText start inside ++ tail)).group 1 = inside := by
  obtain ⟨u, hu, hgroups⟩ := (completes_parentheses 1 blank_space hinside htail []).literal
    (.start (conditionText start inside ++ tail)) (conditionText_append _ _ _) rfl
  have hfirst : first (conditionHeader (.literal start.toList)) some
      (.start (conditionText start inside ++ tail)) = some u := by
    simp only [conditionHeader, first_append]
    exact first_atStart rfl hu
  obtain ⟨hkind, hgroup⟩ := classify_of_preferred before hgrammar hbefore hfirst
  refine ⟨hkind, ?_⟩
  rw [Classified.group, hgroup, hgroups]
  rfl

/-- An `else if` header whose form is the first to match it. -/
theorem classify_elseIfForm (before : List LineForm)
    (hgrammar : grammar = before ++ elseIfForm :: after)
    (hbefore :
    before.all (fun form =>
    (form.pattern.matchStart (conditionText "else if" inside ++ tail)).isNone) = true) :
    (classify grammar (conditionText "else if" inside ++ tail)).kind = .elseIfHeader ∧
      (classify grammar (conditionText "else if" inside ++ tail)).group 1 = inside := by
  have hif := (completes_parentheses 1 blank_space hinside htail []).literal (t := "if")
  obtain ⟨u, hu, hgroups⟩ :=
    (@Completes.many1 _ isBlank " " _ _ _ hif (by decide) (by decide) (by simp [isBlank])).literal
    (t := "else") (.start (conditionText "else if" inside ++ tail)) (conditionText_append _ _ _) rfl
  have hfirst : first elseIfForm.pattern some (.start (conditionText "else if" inside ++ tail)) =
      some u := by
    simp only [elseIfForm, conditionHeader, first_append]
    exact first_atStart rfl hu
  obtain ⟨hkind, hgroup⟩ := classify_of_preferred before hgrammar hbefore hfirst
  refine ⟨hkind, ?_⟩
  rw [Classified.group, hgroup, hgroups]
  rfl

end Conditions

end CodeConverter.Grammar

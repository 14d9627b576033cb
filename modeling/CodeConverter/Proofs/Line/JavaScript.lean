import CodeConverter.Proofs.Line.Call
import CodeConverter.Proofs.Line.Header

/-!
# Lines of JavaScript programs

How the headers of conditionals, loops and functions are classified, with the pieces their forms
remember, and that a call statement has no form.
-/

namespace CodeConverter.Grammar.JavaScript

open Text Pattern Program List

/-- The header of a function. -/
def functionText (name : Text) (parameters : List Text) : Text :=
  "function " ++ (name ++ ('(' :: (join ", " parameters ++ ")")))

variable {inside tail name arguments : Text} {parameters : List Text} {groups : List (Nat × Text)}

section Headers

variable (hinside : '\n' ∉ inside) (htail : IsTail tail)

include hinside htail

/-- An `if` header. -/
theorem classify_if : (classify withLambdas (conditionText "if" inside ++ tail)).kind = .ifHeader ∧
      (classify withLambdas (conditionText "if" inside ++ tail)).group 1 = inside :=
  classify_conditionHeader hinside htail (withLambdas.take 6) "if" rfl rfl

/-- An `else if` header. -/
theorem classify_elseIf :
    (classify withLambdas (conditionText "else if" inside ++ tail)).kind = .elseIfHeader ∧
      (classify withLambdas (conditionText "else if" inside ++ tail)).group 1 = inside :=
  classify_elseIfForm hinside htail (withLambdas.take 7) rfl rfl

/-- A `while` header. -/
theorem classify_while :
    (classify withLambdas (conditionText "while" inside ++ tail)).kind = .whileHeader ∧
      (classify withLambdas (conditionText "while" inside ++ tail)).group 1 = inside :=
  classify_conditionHeader hinside htail (withLambdas.take 11) "while" rfl rfl

end Headers

/-- An `else` header. -/
theorem classify_else (htail : IsTail tail) :
    (classify withLambdas ("else" ++ tail)).kind = .elseHeader := by
  cases htail with
  | bare => rfl
  | brace => rfl

section

variable (hname : IsName name)

include hname

/-- The name and the parameters of a function are what stands before and between the parentheses. -/
theorem completes_function (hinside : '\n' ∉ inside) (htail : IsTail tail) :
    Completes
    (first blanks (first (maybe "*") (first blanks (first (group 1 word) (first blanks (first "("
      (first (group 2 anything) (first ")" (first headerEnd some)))))))))
      (" " ++ (name ++ ("(" ++ (inside ++ ')' :: tail)))) [] [(2, inside), (1, name)] := by
  have hword :=
    (completes_parentheses 2 (forall_mem_nil _) hinside htail [(1, name)]).group (p := word)
    fun hahead hk => first_many1 hahead hname.1 hname.2 (by simp; decide) hk
  obtain ⟨c, t, rfl⟩ := exists_cons_of_ne_nil hname.1
  have hc := hname.2 c mem_cons_self
  have hhead : ∀ d ∈ (c :: t ++ ("(" ++ (inside ++ ')' :: tail))).head?, isBlank d = false := by
    simpa using isBlank_eq_false_of_isWord hc
  refine Completes.many
    (.maybe_skip (fun s hs _ => first_symbol_none ?_) (hword.many (forall_mem_nil _) hhead))
    (by decide) hhead
  rw [hs]
  rintro ⟨⟩
  cases hc

/-- A function header with its name and its parameters. -/
theorem classify_function (hparameters : ∀ p ∈ parameters, IsIdentifier p) (htail : IsTail tail) :
    (classify withLambdas (functionText name parameters ++ tail)).kind = .functionHeader ∧
      (classify withLambdas (functionText name parameters ++ tail)).group 1 = name ∧
      (classify withLambdas (functionText name parameters ++ tail)).group 2 =
      join ", " parameters := by
  have hinside : '\n' ∉ join ", " parameters := not_mem_join_names hparameters
  have htext : functionText name parameters ++ tail =
      "function" ++ (" " ++ (name ++ ("(" ++ (join ", " parameters ++ ')' :: tail)))) := by
    unfold functionText
    rw [append_assoc, append_assoc, cons_append, append_assoc]
    rfl
  rw [htext]
  obtain ⟨u, hu, hgroups⟩ :=
    (completes_function hname hinside htail).literal (t := "function") (.start _) rfl rfl
  have hfirst : first functionForm.pattern some
      (.start ("function" ++ (" " ++ (name ++ ("(" ++ (join ", " parameters ++ ')' :: tail)))))) =
      some u := by
    simp only [functionForm, exportWords, first_append]
    exact first_atStart rfl (first_maybe_skip rfl (first_maybe_skip rfl hu))
  obtain ⟨hkind, hgroup⟩ := classify_of_preferred (withLambdas.take 2)
    (show withLambdas = _ ++ functionForm :: withLambdas.drop 3 from rfl) rfl hfirst
  simp only [Classified.group, hgroup, hgroups]
  exact ⟨hkind, rfl, rfl⟩

end

/-- A call statement has no form, unless the word that its name starts with returns. -/
theorem classify_call (hname : IsIdentifier name) (hline : '\n' ∉ arguments)
    (hother : name.takeWhile isWord ≠ "return") :
    (classify withLambdas (callText name arguments ++ ";")).kind = .generic := by
  have hnot : name ∉ ["return".toList] := by
    rintro hmem
    obtain rfl := mem_singleton.mp hmem
    exact hother rfl
  exact Grammar.classify_call hname hline (by simp) (by decide) hnot (mt mem_singleton.mp hother)
    (fun _ _ hc => hc) rfl rfl

end CodeConverter.Grammar.JavaScript

import CodeConverter.Proofs.Line.Call
import CodeConverter.Proofs.Line.Header

/-!
# Lines of C# programs

How the headers of namespaces, classes, methods, conditionals and loops are classified, with the
pieces their forms remember, and that a call statement has no form. The form of a method is tried
last, so its header must be told from all others: the word in front of its name is a type and no
keyword.
-/

namespace CodeConverter.Grammar.CSharp

open Text Pattern Program List

/-- The reserved words that name types. -/
def typeWords : List String :=
  ["bool", "byte", "char", "decimal", "double", "float", "int", "long", "object", "sbyte", "short",
    "string", "uint", "ulong", "ushort", "void"]

/-- The other reserved words. -/
def reservedWords : List String :=
  ["abstract", "as", "base", "break", "case", "catch", "checked", "class", "const", "continue",
    "default", "delegate",
    "do", "else", "enum", "event", "explicit", "extern", "false", "finally", "fixed", "for",
    "foreach", "goto", "if",
    "implicit", "in", "interface", "internal", "is", "lock", "namespace", "new", "null", "operator",
    "out", "override",
    "params", "private", "protected", "public", "readonly", "ref", "return", "sealed", "sizeof",
    "stackalloc", "static",
    "struct", "switch", "this", "throw", "true", "try", "typeof", "unchecked", "unsafe", "using",
    "virtual", "volatile", "while"]

/-- The words that start a statement where they are no identifiers. -/
def contextualWords : List String :=
  ["await", "yield"]

/-- An identifier that is no keyword. -/
def IsIdentifier (t : Text) : Prop :=
  Program.IsIdentifier t ∧ ∀ word ∈ reservedWords ++ typeWords, t ≠ word.toList

/-- An identifier or a keyword that names a type. -/
def IsType (t : Text) : Prop :=
  Program.IsIdentifier t ∧ ∀ word ∈ reservedWords, t ≠ word.toList

/-- The type of the result of a method, as its form reads it: of word characters, and no word that
starts a statement. -/
def IsResult (t : Text) : Prop :=
  IsName t ∧ ∀ word ∈ reservedWords ++ contextualWords, t ≠ word.toList

/-- The header of a namespace. -/
def namespaceText (name : Text) : Text :=
  "namespace " ++ name

/-- The header of a class. -/
def classText (name : Text) : Text :=
  "public class " ++ name

/-- A parameter: its type and its name. -/
def parameterText (parameter : Text × Text) : Text :=
  parameter.1 ++ (' ' :: parameter.2)

/-- A list of parameters. -/
def parametersText (parameters : List (Text × Text)) : Text :=
  join ", " (parameters.map parameterText)

/-- The header of a method. -/
def methodText (type name : Text) (parameters : List (Text × Text)) : Text :=
  type ++ (' ' :: (name ++ ('(' :: (parametersText parameters ++ ")"))))

variable {inside tail type name arguments rest : Text} {parameters : List (Text × Text)}

section Conditions

variable (hinside : '\n' ∉ inside) (htail : IsTail tail)

include hinside htail

/-- An `if` header. -/
theorem classify_if : (classify all (conditionText "if" inside ++ tail)).kind = .ifHeader ∧
      (classify all (conditionText "if" inside ++ tail)).group 1 = inside :=
  classify_conditionHeader hinside htail (all.take 6) "if" rfl rfl

/-- An `else if` header. -/
theorem classify_elseIf :
    (classify all (conditionText "else if" inside ++ tail)).kind = .elseIfHeader ∧
      (classify all (conditionText "else if" inside ++ tail)).group 1 = inside :=
  classify_elseIfForm hinside htail (all.take 7) rfl rfl

/-- A `while` header. -/
theorem classify_while : (classify all (conditionText "while" inside ++ tail)).kind = .whileHeader ∧
      (classify all (conditionText "while" inside ++ tail)).group 1 = inside :=
  classify_conditionHeader hinside htail (all.take 11) "while" rfl rfl

end Conditions

/-- An `else` header. -/
theorem classify_else (htail : IsTail tail) :
    (classify all ("else" ++ tail)).kind = .elseHeader := by
  cases htail with
  | bare => rfl
  | brace => rfl

/-- A namespace header: it does not end in a semicolon. -/
theorem classify_namespace (hname : IsName name) (htail : IsTail tail) :
    (classify all (namespaceText name ++ tail)).kind = .namespaceLine ∧
      (classify all (namespaceText name ++ tail)).group 1 ≠ [';'] := by
  obtain ⟨mark, hmark, hend⟩ : ∃ mark : Text, mark ≠ [';'] ∧ Completes (first blanks
      (first (group 1 (oneOf [";", maybe "\x7b"])) (first .atEnd some))) tail [] [(1, mark)] := by
    refine ⟨strip tail, by cases htail <;> decide, fun s hahead hgroups => ?_⟩
    obtain ⟨before, ahead, index, captures⟩ := s
    obtain rfl : ahead = tail := hahead
    obtain rfl : captures = [] := map_eq_nil_iff.mp hgroups
    cases htail <;> exact ⟨_, rfl, by simp [State.groups, State.remember, State.advance]; rfl⟩
  have hword : ∀ c ∈ name, wordOr "." c = true := fun c hc => by rw [wordOr, hname.2 c hc]; rfl
  have hdotted := hend.many1 hname.1 hword (by cases htail <;> decide)
  obtain ⟨u, hu, hgroups⟩ := (@Completes.many1 _ isBlank " " _ _ _ hdotted (by decide) (by decide)
    hname.head_not_blank).literal (t := "namespace") (.start (namespaceText name ++ tail)) rfl rfl
  have hfirst :
      first namespaceForm.pattern some (.start (namespaceText name ++ tail)) = some u := by
    simp only [namespaceForm, first_append]
    exact first_atStart rfl hu
  obtain ⟨hkind, hgroup⟩ :=
    classify_of_preferred (all.take 1) (show all = _ ++ namespaceForm :: all.drop 2 from rfl)
      rfl hfirst
  refine ⟨hkind, ?_⟩
  rw [Classified.group, hgroup, hgroups]
  exact hmark

/-- A class header with its name. -/
theorem classify_class (hname : IsName name) (htail : IsTail tail) :
    (classify all (classText name ++ tail)).kind = .classHeader ∧
      (classify all (classText name ++ tail)).group 1 = name ∧
      (classify all (classText name ++ tail)).group 2 = [] := by
  have hend :
      Completes (first (maybe typeArguments) (first (maybe (blanks ++ ":" ++ blanks ++ group 2
      (few1 (wordBlankOr ".<>,"))))
      (first (maybe (gap ++ "where" ++ gap ++ little)) (first headerEnd some)))) tail
      [(1, name)] [(1, name)] := by
    intro s hahead hgroups
    obtain ⟨before, ahead, index, captures⟩ := s
    obtain rfl : ahead = tail := hahead
    cases htail <;> exact ⟨_, rfl, hgroups⟩
  have hword := hend.group (p := word) fun hahead hk =>
    first_many1 hahead hname.1 hname.2 (by cases htail <;> decide) hk
  obtain ⟨u, hu, hgroups⟩ := (@Completes.many1 _ isBlank " " _ _ _ hword (by decide) (by decide)
    hname.head_not_blank).literal (t := "class") ⟨some ' ', _, 7, []⟩ rfl rfl
  have hfirst : first classForm.pattern some (.start (classText name ++ tail)) = some u := by
    simp only [classForm, first_append]
    exact first_atStart rfl (first_of_outcomes rfl (first_alt_left hu))
  obtain ⟨hkind, hgroup⟩ :=
    classify_of_preferred (all.take 4) (show all = _ ++ classForm :: all.drop 5 from rfl) rfl hfirst
  simp only [Classified.group, hgroup, hgroups]
  exact ⟨hkind, rfl, rfl⟩

/-- The header of a method: a type, a name, and a list of parameters without brackets and
semicolons. -/
def methodSketch : Sketch :=
  .word ((reservedWords ++ contextualWords).map String.toList) (some [])
    (.sign ' ' (.word [] (some []) (.sign '(' (.rest (except ";[\x7d\n")))))

theorem draws_methodSketch (htype : IsResult type) (hname : IsName name)
    (hrest : ∀ c ∈ rest, except ";[\x7d\n" c = true) :
    methodSketch.Draws none (type ++ ' ' :: (name ++ '(' :: rest)) := by
  refine Sketch.draws_word htype.1.1 htype.1.2 (fun hmem => ?_) fun _ =>
    ⟨_, rfl, Sketch.draws_word hname.1 hname.2 not_mem_nil fun _ => ⟨_, rfl, hrest⟩⟩
  obtain ⟨word, hword, heq⟩ := mem_map.mp hmem
  exact htype.2 word hword heq.symm

/-- The header of a method has no other form. -/
theorem matchStart_before_method (htype : IsResult type) (hname : IsName name)
    (hrest : ∀ c ∈ rest, except ";[\x7d\n" c = true) : (all.take 20).all (fun form =>
      (form.pattern.matchStart (type ++ ' ' :: (name ++ '(' :: rest))).isNone) = true := by
  have hleads : (all.take 20).all (fun form => (form.pattern.leads methodSketch).isEmpty) = true :=
    by decide +kernel
  refine all_eq_true.mpr fun form hform => ?_
  rw [matchStart_eq_none_of_leads (judged_all all (by simp)) (draws_methodSketch htype hname hrest)
    (mem_of_mem_take hform) (all_eq_true.mp hleads form hform)]
  rfl

theorem except_parametersText {listed : Text} (h : ∀ p ∈ parameters, IsType p.1 ∧ IsIdentifier p.2)
    (hlisted : listed.all (fun d => !(isWord d || isMark d) && d ≠ ',' && d ≠ ' ') = true) :
    ∀ c ∈ parametersText parameters, except listed c = true := by
  intro c hc
  rw [except, contains_eq_mem, Bool.not_eq_true', decide_eq_false_iff_not]
  intro hlist
  have hother := all_eq_true.mp hlisted c hlist
  simp only [Bool.and_eq_true, Bool.not_eq_true', decide_eq_true_eq] at hother
  obtain ⟨⟨hout, hcomma⟩, hspace⟩ := hother
  rcases mem_join hc with hsep | ⟨entry, hentry, hmem⟩
  · simp [hcomma, hspace] at hsep
  · obtain ⟨p, hp, rfl⟩ := mem_map.mp hentry
    rcases mem_append.mp hmem with hin | hin
    · exact (h p hp).1.1.not_mem hout hin
    · rcases mem_cons.mp hin with rfl | hin
      · exact hspace rfl
      · exact (h p hp).2.1.not_mem hout hin

theorem methodText_append (type name : Text) (parameters : List (Text × Text)) (tail : Text) :
    methodText type name parameters ++ tail =
      type ++ ' ' :: (name ++ '(' :: (parametersText parameters ++ ')' :: tail)) := by
  simp [methodText]

/-- The parameters of a method are what stands between its parentheses. -/
theorem completes_parameters (hinside : ∀ c ∈ inside, except "()" c = true) (htail : IsTail tail)
    (groups : List (Nat × Text)) :
    Completes
    (first (parameterList 3) (first blanks (first (maybe ("where" ++ gap ++ little)) (first blanks
      (first (oneOf ["=>" ++ blanks ++ group 4 something ++ blanks ++ ";", group 5 ";",
      maybe "\x7b"]) (first .atEnd some))))))
      ("(" ++ (inside ++ (")" ++ tail))) groups ((3, inside) :: groups) := by
  have hend : Completes (first blanks (first (maybe ("where" ++ gap ++ little)) (first blanks
      (first (oneOf ["=>" ++ blanks ++ group 4 something ++ blanks ++ ";", group 5 ";",
      maybe "\x7b"]) (first .atEnd some)))))
      tail ((3, inside) :: groups) ((3, inside) :: groups) := by
    intro s hahead hgroups
    obtain ⟨before, ahead, index, captures⟩ := s
    obtain rfl : ahead = tail := hahead
    cases htail <;> exact ⟨_, rfl, hgroups⟩
  simp only [parameterList, first_append]
  refine (hend.literal.group fun hahead hk => ?_).literal
  rw [first_append]
  exact first_many hahead hinside (by simp; decide) (first_of_outcomes rfl hk)

/-- The word in front of the name of a method is its type: were it a modifier, the name would be a
type without a blank behind it. -/
theorem exists_first_method (htype : IsResult type) (hname : IsName name)
    (hinside : ∀ c ∈ inside, except "()" c = true)
    (htail : IsTail tail) (hrest : ∀ c ∈ inside ++ ')' :: tail, except ";[\x7d\n" c = true) :
    ∃ u, first methodForm.pattern some
        (.start (type ++ ' ' :: (name ++ '(' :: (inside ++ ')' :: tail)))) = some u ∧
      u.groups = [(3, inside), (2, name), (1, [])] := by
  have hlist :=
    @Completes.many _ isBlank [] _ _ _ (completes_parameters hinside htail [(2, name), (1, [])])
      (forall_mem_nil _) (by simp [isBlank])
  have hword := (hlist.maybe_skip (p := typeArguments) fun s hs _ => by
    rw [typeArguments, first_append, first_append]
    exact first_symbol_none (by rw [hs]; simp; decide)).group (p := word) fun hahead hk =>
      first_many1 hahead hname.1 hname.2 (by simp; decide) hk
  have hgap :=
    @Completes.many1 _ isBlank " " _ _ _ hword (by decide) (by decide) hname.head_not_blank
  generalize htext : type ++ ' ' :: (name ++ '(' :: (inside ++ ')' :: tail)) = line
  obtain ⟨u, hu, hgroups⟩ :=
    hgap (((State.start line).remember 1 (.start line)).past type _) rfl rfl
  refine ⟨u, ?_, hgroups⟩
  have hdraws : methodSketch.Draws none line := by
    rw [← htext]
    exact draws_methodSketch htype hname hrest
  simp only [methodForm, memberStart, first_append]
  refine first_atStart rfl ?_
  rw [first_group]
  refine first_star_back (first_notAhead (eq_nil_iff_forall_not_mem.mpr fun v hv => ?_) ?_)
    fun piece v hreads hpiece => ?_
  · obtain ⟨piece, hreads⟩ := reads_of_mem_outcomes hv
    refine not_reads_of_leads ?_ (by decide +kernel) hdraws hreads
    exact forall_mem_nil _
  · have hword : ∀ c ∈ type, wordOr "." c = true := fun c hc => by rw [wordOr, htype.1.2 c hc]; rfl
    simp only [typeName, first_append]
    exact first_many1 htext.symm htype.1.1 hword (by simp; decide)
      (first_of_outcomes rfl (first_of_outcomes rfl (first_of_outcomes rfl hu)))
  · cases hreads with
    | starNil => exact absurd rfl hpiece
    | starCons hone _ hmore =>
      refine first_eq_none fun _ _ hstart => first_eq_none fun _ _ hname =>
        first_eq_none fun _ _ hgap => ?_
      refine absurd (.seq (.seq (.seq (.group 1 (.seq hone hmore)) hstart) hname) hgap)
        (not_reads_of_leads ?_ (by decide +kernel) hdraws)
      repeat' first
        | exact Sketch.judged_wide rfl rfl
        | exact Sketch.judged_isBlank
        | exact Sketch.judged_among rfl
        | exact Sketch.judged_wordOr rfl
        | refine forall_mem_cons.mpr ⟨?_, ?_⟩
        | exact forall_mem_nil _

/-- A method header: its name and its parameters, without modifiers and without a body. -/
theorem classify_method (htype : IsResult type) (hname : IsName name)
    (hparameters : ∀ p ∈ parameters, IsType p.1 ∧ IsIdentifier p.2) (htail : IsTail tail) :
    (classify all (methodText type name parameters ++ tail)).kind = .methodHeader ∧
      ∀ k, (classify all (methodText type name parameters ++ tail)).group? k =
        [(3, parametersText parameters), (2, name), (1, [])].lookup k := by
  have hrest : ∀ c ∈ parametersText parameters ++ ')' :: tail, except ";[\x7d\n" c = true := by
    intro c hc
    rcases mem_append.mp hc with hc | hc
    · exact except_parametersText hparameters rfl c hc
    · cases htail with
      | bare =>
        obtain rfl := mem_singleton.mp hc
        decide
      | brace =>
        have hcases : c = ')' ∨ c = ' ' ∨ c = '{' := by simpa using hc
        rcases hcases with rfl | rfl | rfl <;> decide
  obtain ⟨u, hu, hgroups⟩ :=
    exists_first_method htype hname (except_parametersText hparameters rfl) htail hrest
  obtain ⟨hkind, hgroup⟩ :=
    classify_of_preferred _ (show all = _ ++ methodForm :: all.drop 21 from rfl)
    (matchStart_before_method htype hname hrest) hu
  rw [methodText_append]
  refine ⟨hkind, fun k => ?_⟩
  rw [hgroup, hgroups]

/-- A call statement has no form, unless the word that its name starts with returns. -/
theorem classify_call (hname : Program.IsIdentifier name) (hline : '\n' ∉ arguments)
    (hother : name.takeWhile isWord ≠ "return") :
    (classify all (callText name arguments ++ ";")).kind = .generic := by
  have hnot : name ∉ ["return".toList] := by
    rintro hmem
    obtain rfl := mem_singleton.mp hmem
    exact hother rfl
  exact Grammar.classify_call hname hline (by simp) (by decide) hnot (mt mem_singleton.mp hother)
    (fun _ _ hc => hc) rfl rfl

end CodeConverter.Grammar.CSharp

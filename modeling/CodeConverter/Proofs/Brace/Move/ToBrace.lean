import CodeConverter.Proofs.Brace.Move.ToIndent

/-!
# Moves of lines written with braces
-/

namespace CodeConverter.Brace.ToBrace

open Text Literal List Bool

variable {c : Conversion} {fails : Fault → Prop} {fine : Text → Prop} {s : State} {l : Classified}
    {line text value name : Text}

/-- What stands before the brace at the end of a line. -/
def headOf (line : Text) : Text :=
  stripEnd line.dropLast

/-- The move of a line that no form describes. -/
def genericMove (s : State) (line : Text) : Move :=
  if s.inLiteral && Grammar.literalClose.matchesStart line then .closes
  else if endsIn (· = '{') line then
    if Block.isHeader (headOf line) || bareBlock.matchesStart (headOf line) then .opens .block
      else .literal
  else if opensLiteral line then .literal
  else .stay

/-- The move of a statement with a value. -/
def valueMove (value : Text) : Move :=
  if opensLiteral value then .literal else .stay

/-- The move of a class header. -/
def classMove (c : Conversion) (s : State) (l : Classified) : Move :=
  if c = .javaToJavaScript &&
    !(s.scopes.any fun scope => scope = .classBody || scope = .wrapper) then
    .enters .wrapper (l.group 1)
  else .enters .classBody (l.group 1)

/-- The move of a constructor header. In Java and C# it has the name of its class. -/
def constructorMove (c : Conversion) (s : State) (l : Classified) : Move :=
  if (c = .javaToJavaScript || c = .csharpToJavaScript) && s.classNames.head? ≠
    some (l.group 1) then genericMove s l.line
  else .opens .function

/-- The move of a method header. -/
def methodMove (c : Conversion) (s : State) (l : Classified) : Move :=
  match c with
  | .javaToJavaScript => .opens .function
  | .csharpToJavaScript => if (l.group? 5).isNone && (l.group 4).isEmpty then .opens .function
      else .stay
  | _ => if s.inClassBody then .opens .function else genericMove s l.line

/-- The move of a variable declaration that depends on its respelled value. -/
def respelledMove (c : Conversion) (l : Classified) : Move :=
  match c.expression (l.group 2) with
  | .ok value => if (l.group 2).isEmpty then .stay else valueMove value
  | .error _ => .stay

/-- The move of a variable declaration. -/
def variableMove (c : Conversion) (s : State) (l : Classified) : Move :=
  match c with
  | .javaToJavaScript =>
    if s.inClassBody then .stay
    else valueMove (if (l.group 2).isEmpty then [] else javaInitializer (l.group 2))
  | .csharpToJavaScript => if s.inClassBody then .stay else valueMove (l.group 3)
  | .javascriptToCSharp => valueMove (l.group 2)
  | _ => respelledMove c l

/-- The move of a line. -/
def move (c : Conversion) (s : State) (l : Classified) : Move :=
  match l.kind with
  | .ifHeader | .elseIfHeader | .elseHeader | .forHeader | .whileHeader | .tryHeader | .catchHeader
  | .finallyHeader | .forEachHeader | .forInHeader => .opens .block
  | .returnLine => valueMove (strip (ToIndent.withoutSemicolons (l.group 1)))
  | .openBrace => .brace
  | .closeBrace => .closes
  | .namespaceLine => if l.group 1 = [';'] then .stay else .opens .silent
  | .interfaceHeader => .opens .skipped
  | .classHeader => classMove c s l
  | .mainHeader => .opens .silent
  | .constructorHeader => constructorMove c s l
  | .functionHeader | .arrowFunction => .opens .function
  | .methodHeader => methodMove c s l
  | .variableLine => variableMove c s l
  | .importLine | .usingLine | .annotationLine | .attributeLine | .lambda | .propertyLine
      | .printLine => .stay
  | _ => genericMove s l.line

/-- What holds of every move that can happen holds of the move of a line. -/
theorem move_elim {P : Move → Prop} (hstay : P .stay) (hliteral : P .literal) (hbrace : P .brace)
    (hcloses : P .closes) (hblock : P (.opens .block)) (hfunction : P (.opens .function))
    (hsilent : l.kind ∈ [.namespaceLine, .mainHeader] → P (.opens .silent))
    (hskipped : l.kind = .interfaceHeader → P (.opens .skipped))
    (hclass : l.kind = .classHeader → P (classMove c s l)) : P (move c s l) := by
  have hgeneric : P (genericMove s l.line) := by
    unfold genericMove
    repeat' split
    all_goals assumption
  have hvalue : ∀ value, P (valueMove value) := fun value => by
    unfold valueMove
    split <;> assumption
  cases hkind : l.kind <;> simp only [move, hkind]
  case classHeader => exact hclass hkind
  case interfaceHeader => exact hskipped hkind
  case mainHeader => exact hsilent (by simp [hkind])
  case namespaceLine =>
    split
    · exact hstay
    · exact hsilent (by simp [hkind])
  case returnLine => exact hvalue _
  case constructorHeader =>
    unfold constructorMove
    split <;> assumption
  case methodHeader =>
    unfold methodMove
    repeat' split
    all_goals assumption
  case variableLine =>
    unfold variableMove respelledMove
    repeat' split
    exacts [hstay, hvalue _, hvalue _, hstay, hvalue _, hvalue _, hstay, hvalue _, hstay]
  all_goals assumption

theorem block_leads {scope : Scope} :
    Move.Leads c s line (block c s line text scope).1 (.opens scope) := .rfl

theorem continuedBlock_leads :
    Move.Leads c s line (continuedBlock c s line text).1 (.opens .block) := by
  simp only [continuedBlock]
  split
  · rename_i hback
    rw [and_eq_true, decide_eq_true_eq] at hback
    obtain ⟨last, hlast, hstrip⟩ := Option.map_eq_some_iff.mp hback.2
    obtain ⟨front, hfront⟩ := Array.back?_eq_some_iff.mp hlast
    refine ⟨⟨rfl, rfl, rfl⟩, rfl, rfl, .inr ⟨last, hstrip, ?_⟩⟩
    show s.output = s.output.pop.push last
    rw [hfront, Array.pop_push]
  · exact .rfl

/-- A line of no particular form makes its move. -/
theorem meets_generic (h : Ready c fails fine s l) :
    Meets fails (fun r => (genericMove s l.line).Leads c s l.line r.1) (generic c s l.line) := by
  have hfold : stripEnd l.line.dropLast = headOf l.line := rfl
  simp only [generic, genericMove]
  rw [hfold]
  split
  · refine h.close.remember.bind fun r hr => ?_
    exact .ok (closeBlock_leads hr.1)
  · split
    · split
      · refine (h.part ((stripEnd_isPrefix _).isInfix.trans (dropLast_isInfix _))).bind
          fun _ _ => ?_
        exact .ok block_leads
      · exact (h.part infix_rfl).bind fun _ _ => .ok .rfl
    · split
      · exact (h.part infix_rfl).bind fun _ _ => .ok .rfl
      · exact (h.part infix_rfl).bind fun _ _ => .ok .rfl

theorem meets_valueStatement {start : Text} (h : Meets fails (fun _ => True) (c.expression value)) :
    Meets fails (fun r => (valueMove value).Leads c s l.line r.1)
    (valueStatement c s start value) := by
  simp only [valueStatement, valueMove]
  refine h.bind fun _ _ => ?_
  split <;> exact .ok .rfl

theorem meets_field {isStatic : Bool} (h : Meets fails (fun _ => True) (c.expression value)) :
    Meets fails (fun r => Move.Leads c s l.line r.1 .stay) (field c s isStatic name value) := by
  simp only [field]
  split
  · exact .ok .rfl
  · exact h.bind fun _ _ => .ok .rfl

theorem meets_localVariable {isConstant : Bool}
    (h : Meets fails (fun _ => True) (c.expression value)) :
    Meets fails (fun r => (valueMove value).Leads c s l.line r.1)
    (localVariable c s isConstant name value) := by
  simp only [localVariable]
  split
  · rename_i hnone
    obtain rfl : value = [] := by simpa using hnone
    exact .ok .rfl
  · exact meets_valueStatement h

theorem lighter_javaInitializer (value : Text) : Lighter (javaInitializer value) value := by
  refine (ToIndent.lighter_javaInitializer value).trans (lighter_replaceBy fun m hof => ?_)
  exact .enclose (.of_isInfix (hof.group_isInfix 1)) rfl rfl

section

variable (h : Ready c fails fine s l)

include h

theorem meets_variableForCSharp :
    Meets fails (fun r => (valueMove (l.group 2)).Leads c s l.line r.1)
    (variableForCSharp c s l) := by
  simp only [variableForCSharp]
  refine .ite (fun hnone => ?_) fun _ => .ite (fun hnull => ?_) fun _ => ?_
  · rw [show l.group 2 = [] by simpa using hnone]
    exact .ok .rfl
  · have hclosed : opensLiteral (l.group 2) = false := by
      rw [or_eq_true, decide_eq_true_eq, decide_eq_true_eq] at hnull
      rcases hnull with heq | heq <;> rw [heq] <;> decide
    rw [valueMove, hclosed]
    exact .ok .rfl
  · refine (h.group 2).bind fun _ _ => ?_
    simp only [valueMove]
    split <;> exact .ok .rfl

theorem meets_variableForJava :
    Meets fails (fun r => (respelledMove c l).Leads c s l.line r.1) (variableForJava c s l) := by
  simp only [variableForJava, respelledMove]
  refine .ite (fun hnone => ?_) fun hsome => ?_
  · refine .ok ?_
    rw [hnone]
    split <;> exact .rfl
  · refine (h.group 2).remember.bind fun value hvalue => ?_
    simp only [hvalue.1, if_neg hsome, valueMove]
    split <;> exact .ok .rfl

theorem meets_variableLine :
    Meets fails (fun r => (variableMove c s l).Leads c s l.line r.1) (variableLine c s l) := by
  cases c
  case javaToJavaScript =>
    simp only [variableLine, variableMove, javaVariable]
    split
    · exact meets_field (h.group 2)
    · refine meets_localVariable (h.lighterGroup (k := 2) ?_)
      split
      · exact .of_light rfl _
      · exact lighter_javaInitializer _
  case csharpToJavaScript =>
    simp only [variableLine, variableMove, csharpVariable]
    split
    · exact meets_field (h.group 3)
    · exact meets_localVariable (h.group 3)
  case javascriptToCSharp => exact meets_variableForCSharp h
  all_goals exact meets_variableForJava h

/-- The visit of a class header. -/
theorem meets_visitClass (hkind : l.kind = .classHeader) :
    Meets fails (fun r => (classMove c s l).Leads c s l.line r.1) (visitClass c s l) := by
  have hheader : ∀ start between base,
      Move.Leads c s l.line (classHeader c (s.enterClass (l.group 1)) l start between base).1
        (.enters .classBody (l.group 1)) := by
    intro start between base
    simp only [classHeader]
    split <;> exact .rfl
  cases c
  case javaToJavaScript =>
    simp only [visitClass, classMove, decide_true, Bool.true_and]
    refine .ite (fun hany => ?_) fun hnone => ?_
    · rw [if_neg (by rw [hany]; decide)]
      exact .ok (hheader _ _ _)
    · rw [if_pos (by rw [not_eq_true] at hnone; rw [hnone]; rfl)]
      exact .ok .rfl
  case csharpToJavaScript =>
    have hbase : Meets fails (fun _ => True) (csharpBase (l.group 2)) := by
      simp only [csharpBase]
      split
      · exact .ok trivial
      · rename_i hsome
        split
        · rename_i hblank
          exact .error (h.base rfl hkind (by simpa using hsome) hblank)
        · exact .ok trivial
    exact hbase.bind fun base _ => .ok (hheader _ _ base)
  all_goals exact .ok (hheader _ _ _)

theorem meets_constructorHeader :
    Meets fails (fun r => (constructorMove c s l).Leads c s l.line r.1)
    (constructorHeader c s l) := by
  cases c
  case javaToJavaScript =>
    simp only [constructorHeader, constructorMove, javaConstructor]
    by_cases hname : s.classNames.head? = some (l.group 1)
    · rw [if_neg (not_not_intro hname), if_neg (by simp [hname])]
      exact .ok block_leads
    · rw [if_pos hname, if_pos (by simpa using hname)]
      exact meets_generic h
  case csharpToJavaScript =>
    simp only [constructorHeader, constructorMove, csharpConstructor]
    by_cases hname : s.classNames.head? = some (l.group 1)
    · rw [if_neg (not_not_intro hname), if_neg (by simp [hname])]
      split
      · exact .ok block_leads
      · exact (h.group 4).bind fun _ _ => .ok .rfl
    · rw [if_pos hname, if_pos (by simpa using hname)]
      exact meets_generic h
  all_goals exact .ok block_leads

theorem meets_methodHeader :
    Meets fails (fun r => (methodMove c s l).Leads c s l.line r.1) (methodHeader c s l) := by
  cases c
  case javaToJavaScript => exact .ok block_leads
  case csharpToJavaScript =>
    simp only [methodHeader, methodMove, csharpMethod]
    cases hdropped : l.group? 5 with
    | some _ => exact .ok .rfl
    | none =>
      cases hvalue : l.group 4 with
      | nil => exact .ok block_leads
      | cons first rest => exact (hvalue ▸ h.group 4).bind fun _ _ => .ok .rfl
  all_goals
    simp only [methodHeader, methodMove, typedMethod]
    split
    · exact .ok block_leads
    · exact meets_generic h

theorem meets_joinedArguments (k : Nat) :
    Meets fails (fun _ => True) (joinedArguments c (l.group k)) := by
  refine .bind (.mapM fun a ha => h.lighterGroup (k := k) ?_) fun _ _ => .ok trivial
  exact .of_isInfix (infix_of_mem_splitArguments ha)

/-- Visiting a line leads to the state its move says. -/
theorem meets_visit : Meets fails (fun r => (move c s l).Leads c s l.line r.1) (visit c s l) := by
  cases hkind : l.kind <;> simp only [visit, move, hkind]
  case ifHeader | whileHeader => exact (h.group 1).bind fun _ _ => .ok block_leads
  case elseIfHeader => exact (h.group 1).bind fun _ _ => .ok continuedBlock_leads
  case elseHeader | catchHeader | finallyHeader => exact .ok continuedBlock_leads
  case tryHeader => exact .ok block_leads
  case forHeader =>
    refine Meets.bind (h.expression _ (h.lighter _ _ h.line ?_)) fun _ _ => .ok block_leads
    have hhead : stripEnd (dropEndWhile (· = '{') l.line) <:+: l.line :=
      (stripEnd_isPrefix _).isInfix.trans (dropEndWhile_isPrefix _ _).isInfix
    refine (Lighter.of_isInfix hhead).trans (lighter_replaceBy fun m _ => .of_light ?_ m.whole)
    cases c <;> decide
  case returnLine =>
    have hvalue := h.lighterGroup (k := 1) (.of_isInfix ((strip_isInfix
      (ToIndent.withoutSemicolons (l.group 1))).trans (dropEndWhile_isPrefix _ _).isInfix))
    simp only [returnLine]
    cases hstrip : strip (ToIndent.withoutSemicolons (l.group 1)) with
    | nil => exact .ok .rfl
    | cons first rest => exact meets_valueStatement (hstrip ▸ hvalue)
  case openBrace =>
    refine .ok ?_
    simp only [openBrace, Move.Leads]
    split <;> exact .rfl
  case closeBrace => exact h.close.remember.bind fun r hr => .ok (closeBlock_leads hr.1)
  case namespaceLine =>
    refine .ok ?_
    simp only [namespaceLine]
    split <;> exact .rfl
  case importLine | usingLine | annotationLine | attributeLine | interfaceHeader | mainHeader =>
    exact .ok .rfl
  case classHeader => exact meets_visitClass h hkind
  case constructorHeader => exact meets_constructorHeader h
  case functionHeader | arrowFunction =>
    refine .ok ?_
    cases c
    case javascriptToCSharp => exact block_leads
    all_goals
      simp only [functionHeader]
      split <;> exact ⟨⟨rfl, rfl, rfl⟩, rfl, rfl, .inl rfl⟩
  case lambda => exact (h.group 4).bind fun _ _ => .ok .rfl
  case methodHeader => exact meets_methodHeader h
  case variableLine => exact meets_variableLine h
  case propertyLine => exact meets_field (h.group 3)
  case forEachHeader =>
    refine (h.group 2).bind fun _ _ => ?_
    cases c <;> exact .ok block_leads
  case forInHeader => exact (h.group 2).bind fun _ _ => .ok block_leads
  case printLine =>
    cases c
    case javaToJavaScript => exact (h.group 2).bind fun _ _ => .ok .rfl
    case csharpToJavaScript => exact (h.group 1).bind fun _ _ => .ok .rfl
    all_goals exact (meets_joinedArguments h 1).bind fun _ _ => .ok .rfl
  all_goals exact meets_generic h

end

end CodeConverter.Brace.ToBrace

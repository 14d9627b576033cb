import CodeConverter.Proofs.Brace.Move

/-!
# Moves of lines written with indentation
-/

namespace CodeConverter.Brace

open Text Literal List

namespace ToIndent

variable {c : Conversion} {fails : Fault → Prop} {fine : Text → Prop} {s : State} {l : Classified}

/-- The text of a line that no form describes, as it is respelled. -/
def genericText (s : State) (line : Text) : Text :=
  if s.inLiteral then keyed line else line

/-- The move of a line that no form describes. -/
def genericMove (s : State) (line : Text) : Move :=
  if s.inLiteral && Grammar.literalClose.matchesStart line then .closes
  else if opensLiteral (genericText s line) then .literal
  else if endsIn (· = '{') (genericText s line) then .opens .block
  else .stay

/-- The value of a variable as it is respelled. -/
def initializer (c : Conversion) (value : Text) : Text :=
  if c = .javaToPython then javaInitializer value else value

theorem lighter_javaInitializer (value : Text) : Lighter (javaInitializer value) value := by
  have hcreation : Lighter (arrayCreation.replaceWith [] value) value :=
    lighter_replaceBy fun m _ => .of_light rfl m.whole
  simp only [javaInitializer]
  split
  · refine .enclose ?_ rfl rfl
    exact hcreation.trans (.of_isInfix ((dropLast_isInfix _).trans (drop_suffix 1 _).isInfix))
  · exact hcreation

/-- A line of no particular form makes its move. -/
theorem meets_generic (h : Ready c fails fine s l) :
    Meets fails (fun r => (genericMove s l.line).Leads c s l.line r.1) (generic c s l.line) := by
  have htext : ∀ t, t <:+: genericText s l.line → Meets fails (fun _ => True) (c.expression t) := by
    intro t ht
    refine h.expression t (h.lighter _ _ ?_ (.of_isInfix ht))
    simp only [genericText]
    split
    · exact h.keyed
    · exact h.line
  have hfold :
      (if s.inLiteral = true then objectKey.replaceBy (fun m => "'" ++ m.group 1 ++ "': ") l.line
      else l.line) = genericText s l.line := rfl
  simp only [generic, genericMove]
  split
  · refine h.close.remember.bind fun r hr => ?_
    exact .ok (closeBlock_leads hr.1)
  · rw [hfold]
    split
    · refine (htext _ infix_rfl).bind fun _ _ => ?_
      exact .ok .rfl
    · split
      · refine (htext _ ((stripEnd_isPrefix _).isInfix.trans (dropLast_isInfix _))).bind
          fun _ _ => ?_
        exact .ok .rfl
      · split
        · exact .ok .rfl
        · refine (htext
            _ ((stripEnd_isPrefix _).isInfix.trans (dropEndWhile_isPrefix _ _).isInfix)).bind
            fun _ _ => ?_
          exact .ok .rfl

/-- The move of a counting loop. Without a range it is a generic line. -/
def loopMove (s : State) (l : Classified) : Move :=
  match l.found with
  | none => genericMove s l.line
  | some m =>
    match Loop.rangeArguments (.ofMatch m) with
    | .ok (some _) => .opens .block
    | _ => genericMove s l.line

/-- The move of a constructor header. A Java constructor has the name of its class. -/
def constructorMove (c : Conversion) (s : State) (l : Classified) : Move :=
  match c with
  | .javaToPython =>
    if s.inClassBody && s.classNames.head? = some (l.group 1) then .opens .block
      else genericMove s l.line
  | _ => .opens .block

/-- The move of a line. -/
def move (c : Conversion) (s : State) (l : Classified) : Move :=
  match l.kind with
  | .ifHeader | .elseIfHeader | .elseHeader | .whileHeader | .tryHeader | .catchHeader
      | .finallyHeader
  | .functionHeader | .arrowFunction | .forEachHeader | .foreachHeader => .opens .block
  | .forHeader => loopMove s l
  | .openBrace => .brace
  | .closeBrace => .closes
  | .classHeader => if c.remembersClasses then .enters .classBody (l.group 1) else .opens .classBody
  | .constructorHeader => constructorMove c s l
  | .methodHeader => if c = .javaToPython || s.inClassBody then .opens .block
      else genericMove s l.line
  | .variableLine =>
    if !(l.group 2).isEmpty && opensLiteral (initializer c (l.group 2)) then .literal else .stay
  | .returnLine | .importLine | .annotationLine | .namespaceLine | .lambda | .propertyLine
      | .constantLine
  | .printLine | .echoLine => .stay
  | _ => genericMove s l.line

/-- What holds of every move that can happen holds of the move of a line. -/
theorem move_elim {P : Move → Prop} (hstay : P .stay) (hliteral : P .literal) (hbrace : P .brace)
    (hcloses : P .closes) (hblock : P (.opens .block)) (hclass : l.kind = .classHeader →
      P (if c.remembersClasses then .enters .classBody (l.group 1) else .opens .classBody)) :
      P (move c s l) := by
  have hgeneric : P (genericMove s l.line) := by
    unfold genericMove
    repeat' split
    all_goals assumption
  cases hkind : l.kind <;> simp only [move, hkind]
  case classHeader => exact hclass hkind
  case forHeader =>
    unfold loopMove
    repeat' split
    all_goals assumption
  case constructorHeader =>
    unfold constructorMove
    repeat' split
    all_goals assumption
  case methodHeader | variableLine => split <;> assumption
  all_goals assumption

theorem meets_phpParameters (h : Ready .phpToPython fails fine s l) (k : Nat) :
    Meets fails (fun _ => True) (Parameter.phpToPython (l.group k)) := by
  refine (Meets.mapM fun p hp => h.lighterGroup (k := k) ?_).imp fun _ _ => trivial
  exact (Lighter.of_isInfix (infix_of_mem_splitArguments hp)).trans
    (lighter_replaceBy fun m _ => .of_light rfl m.whole)

theorem member_fst (line name : Text) (isStatic : Bool) (parameters : List Text) :
    (member s line name isStatic parameters).1 = s.openBlock line .block := by
  simp only [member]
  split
  · rfl
  · split <;> rfl

theorem meets_forHeader (h : Ready c fails fine s l) {m : Match} (hm : l.found = some m) :
    Meets fails (fun r => (loopMove s l).Leads c s l.line r.1) (forHeader c s l (.ofMatch m)) := by
  simp only [forHeader, loopMove, hm]
  refine (h.range m hm).remember.bind fun arguments harguments => ?_
  rw [harguments.1]
  cases arguments with
  | none => exact meets_generic h
  | some arguments => exact .ok .rfl

theorem meets_javaConstructor (h : Ready .javaToPython fails fine s l) :
    Meets fails (fun r => Move.Leads .javaToPython s l.line r.1
      (if s.inClassBody && s.classNames.head? = some (l.group 1) then .opens .block
      else genericMove s l.line)) (constructorHeader .javaToPython s l) := by
  simp only [constructorHeader]
  by_cases hclass : s.inClassBody = true
  · rw [if_neg (show ¬ (!s.inClassBody) = true by simp [hclass])]
    refine (h.className rfl hclass).remember.bind fun name hname => ?_
    have hhead : s.classNames.head? = some name := by
      cases hnames : s.classNames with
      | nil => simp [hnames, innermost] at hname
      | cons first rest => simpa [hnames, innermost] using hname.1
    by_cases hsame : l.group 1 = name
    · rw [if_neg (not_not_intro hsame), if_pos (by simp [hclass, hhead, hsame])]
      exact .ok .rfl
    · rw [if_pos hsame, if_neg (by simp [hhead, Ne.symm hsame])]
      exact meets_generic h
  · rw [if_pos (show (!s.inClassBody) = true by simp [hclass]), if_neg (by simp [hclass])]
    exact meets_generic h

section

variable (h : Ready c fails fine s l)

include h

theorem meets_constructorHeader :
    Meets fails (fun r => Move.Leads c s l.line r.1 (constructorMove c s l))
    (constructorHeader c s l) := by
  by_cases hjava : c = .javaToPython
  · subst hjava
    exact meets_javaConstructor h
  · by_cases hphp : c = .phpToPython
    · subst hphp
      exact (meets_phpParameters h 2).bind fun _ _ => .ok .rfl
    · cases c
      case javaToPython => exact absurd rfl hjava
      case phpToPython => exact absurd rfl hphp
      all_goals exact .ok .rfl

/-- A method header opens a block in a class body, in Java anywhere. -/
theorem meets_methodHeader : Meets fails (fun r => Move.Leads c s l.line r.1
      (if c = .javaToPython || s.inClassBody then .opens .block else genericMove s l.line))
      (methodHeader c s l) := by
  have hmember : ∀ name isStatic parameters,
      Move.Leads c s l.line (member s l.line name isStatic parameters).1 (.opens .block) := by
    intro name isStatic parameters
    rw [member_fst]
    exact .rfl
  by_cases hjava : c = .javaToPython
  · subst hjava
    rw [if_pos (by simp)]
    exact .ok (hmember _ _ _)
  · have hother : methodHeader c s l = if s.inClassBody then
        pure (member s l.line (l.group 2) (l.group? 1).isSome (javascriptParameters (l.group 3)))
      else generic c s l.line := by
      cases c
      case javaToPython => exact absurd rfl hjava
      all_goals rfl
    rw [hother]
    by_cases hclass : s.inClassBody = true
    · rw [if_pos hclass, if_pos (by simp [hclass])]
      exact .ok (hmember _ _ _)
    · rw [if_neg hclass, if_neg (by simp [hclass, hjava])]
      exact meets_generic h

theorem meets_functionHeader :
    Meets fails (fun r => Move.Leads c s l.line r.1 (.opens .block)) (functionHeader c s l) := by
  simp only [functionHeader]
  split
  · refine (meets_phpParameters h 3).bind fun parameters _ => .ok ?_
    simp [member_fst, Move.Leads]
  · exact .ok .rfl

end

theorem meets_javaPrint (h : Ready .javaToPython fails fine s l) (hkind : l.kind = .printLine) :
    Meets fails (fun r => Move.Leads .javaToPython s l.line r.1 .stay)
    (javaPrint .javaToPython s l) := by
  simp only [javaPrint]
  refine (h.group 2).remember.bind fun arguments harguments => ?_
  split
  · exact .ok .rfl
  · split
    · exact .ok .rfl
    · rename_i hsome
      have hne : arguments ≠ [] := by simpa using hsome
      split
      · rename_i hprintf
        simp only [formatArguments]
        split
        · rename_i hnone
          exact .error (h.format arguments rfl hkind hprintf harguments.1 hne hnone)
        · exact .ok .rfl
        · exact .ok .rfl
      · exact .ok .rfl

section

variable (h : Ready c fails fine s l)

include h

theorem meets_echoLine :
    Meets fails (fun r => Move.Leads c s l.line r.1 .stay) (echoLine c s l) := by
  simp only [echoLine]
  split
  · exact .ok .rfl
  · refine .bind (.mapM fun part hpart => h.lighterGroup (k := 1) ?_) fun _ _ => .ok .rfl
    refine .trans ?_ (.of_isInfix (infix_of_mem_splitArguments hpart))
    have hunwrap : Lighter (Expression.ToPython.unwrap (l.group 1)) (l.group 1) := by
      simp only [Expression.ToPython.unwrap]
      split
      · exact .of_isInfix ((dropLast_isInfix _).trans (drop_suffix 1 _).isInfix)
      · exact .of_isInfix infix_rfl
    exact hunwrap.trans (lighter_replaceBy fun m _ => .of_light rfl m.whole)

theorem meets_variableLine : Meets fails (fun r => Move.Leads c s l.line r.1
      (if !(l.group 2).isEmpty && opensLiteral (initializer c (l.group 2)) then .literal
      else .stay)) (variableLine c s l) := by
  have hinitializer : Lighter (initializer c (l.group 2)) (l.group 2) := by
    simp only [initializer]
    split
    · exact lighter_javaInitializer _
    · exact .of_isInfix infix_rfl
  cases hvalue : l.group 2 with
  | nil =>
    simp only [variableLine, hvalue]
    exact .ok .rfl
  | cons first rest =>
    rw [hvalue] at hinitializer
    simp only [variableLine, hvalue, isEmpty_cons, Bool.not_false, Bool.true_and]
    refine (h.lighterGroup (k := 2) (by rw [hvalue]; exact hinitializer)).bind fun _ _ => .ok ?_
    change Move.Leads c s l.line (trackLiteral s (initializer c (first :: rest))) _
    simp only [trackLiteral]
    split <;> exact .rfl

/-- Visiting a line leads to the state its move says. -/
theorem meets_visit : Meets fails (fun r => (move c s l).Leads c s l.line r.1) (visit c s l) := by
  cases hkind : l.kind <;> simp only [visit, move, hkind]
  case ifHeader | elseIfHeader | whileHeader =>
    exact (h.group 1).bind fun _ _ => .ok .rfl
  case elseHeader | tryHeader | finallyHeader => exact .ok .rfl
  case catchHeader =>
    refine .ok ?_
    simp only [catchHeader]
    split <;> exact .rfl
  case forHeader =>
    cases hfound : l.found with
    | none =>
      simp only [loopMove, hfound]
      exact meets_generic h
    | some m => exact meets_forHeader h hfound
  case returnLine =>
    simp only [returnLine]
    split
    · exact .ok .rfl
    · refine (h.lighterGroup (k := 1) (.of_isInfix ?_)).bind fun _ _ => .ok .rfl
      exact (strip_isInfix _).trans (dropEndWhile_isPrefix _ _).isInfix
  case openBrace =>
    refine .ok ?_
    simp only [openBrace, Move.Leads]
    split <;> exact .rfl
  case closeBrace => exact h.close.remember.bind fun r hr => .ok (closeBlock_leads hr.1)
  case importLine | annotationLine | namespaceLine => exact .ok .rfl
  case classHeader =>
    refine .ok ?_
    simp only [classHeader]
    split <;> split <;> exact .rfl
  case constructorHeader => exact meets_constructorHeader h
  case methodHeader => exact meets_methodHeader h
  case functionHeader | arrowFunction => exact meets_functionHeader h
  case lambda =>
    refine (h.group 4).bind fun _ _ => ?_
    split <;> exact .ok .rfl
  case variableLine => exact meets_variableLine h
  case propertyLine =>
    simp only [propertyLine]
    split
    · exact .ok .rfl
    · exact (h.group 2).bind fun _ _ => .ok .rfl
  case constantLine | forEachHeader => exact (h.group 2).bind fun _ _ => .ok .rfl
  case foreachHeader =>
    refine (h.group 1).bind fun _ _ => ?_
    split <;> exact .ok .rfl
  case printLine =>
    simp only [printLine]
    split
    · exact meets_javaPrint h hkind
    · exact (h.group 1).bind fun _ _ => .ok .rfl
  case echoLine => exact meets_echoLine h
  all_goals exact meets_generic h

end

end ToIndent

end CodeConverter.Brace

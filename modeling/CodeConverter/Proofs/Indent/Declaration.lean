import CodeConverter.Proofs.Indent.Statement

/-!
# Declarations of an indented source

Classes, functions and assignments have an outcome, and so has every visited line.
-/

namespace CodeConverter.Indent

open Text List Parameter

variable {c : Conversion} {fails : Fault → Prop} {fine spelled good : Text → Prop} {s : State}
    {l : Classified} {name : Text}

variable {value t target : Text}

theorem all_of_lookup {set : Char → Bool} {entries : List (Text × Text)} {key : Text}
    (hall : (entries.all fun e => e.2.all set) = true) (hlookup : entries.lookup key = some value) :
    value.all set = true := by
  obtain ⟨before, after, heq, -⟩ := lookup_eq_some_iff.mp hlookup
  exact all_eq_true.mp hall (key, value) (by rw [heq]; simp)

theorem all_notBrace_java (hint : Text) : (TypeName.java hint).all notBrace = true := by
  simp only [TypeName.java]
  split
  · decide
  · cases hlookup :
      TypeName.javaAnnotations.lookup (TypeName.typeArguments.replaceWith [] (strip hint)) with
    | none => decide
    | some value => exact all_of_lookup rfl hlookup

theorem quiet_declare {isNew : Bool} {t : State} (h : s.declare name = .ok (isNew, t)) :
    Quiet s t := by
  simp only [State.declare] at h
  split at h
  · cases h
    exact .rfl
  · split at h
    · cases h
    · rename_i inner outer hnames
      cases h
      exact ⟨⟨rfl, rfl, rfl, rfl, rfl, rfl, by rw [hnames]; rfl, rfl, rfl⟩, rfl, rfl, rfl,
        fun _ hi => hi⟩

theorem Arrives.meets_inClassBody (ha : Arrives c fails fine good s l) :
    Meets fails (fun inClass => inClass = true → s.scopes.head? = some .classBody)
    s.inClassBody := by
  refine ha.scope.remember.bind fun scope hscope => .ok fun hclass => ?_
  cases hscopes : s.scopes with
  | nil => simp [hscopes, innermost] at hscope
  | cons first rest =>
    obtain rfl : first = scope := by simpa [hscopes, innermost] using hscope.1
    simpa using hclass

namespace Discipline

variable (h : Discipline c fails fine spelled good)

include h

omit h in
/-- The parameters of a function, each written by `one`. -/
theorem meets_writeEach {one : Parts → Except Fault Text}
    (hone : ∀ p, p.name <:+: t → p.hint <:+: t → p.default <:+: t → Meets fails good (one p)) :
    Meets fails (fun given => ∀ p ∈ given, good p) (writeEach one t) := by
  refine .mapM fun p hp => ?_
  obtain ⟨a, ha, rfl⟩ := mem_map.mp (mem_filter.mp hp).1
  have hpart := infix_of_mem_splitArguments ha
  have hhead : (cut '=' a).1 <:+: t := (cut_fst_isPrefix '=' a).isInfix.trans hpart
  refine hone _ ?_ ?_ ?_
  · exact (strip_isInfix _).trans ((cut_fst_isPrefix ':' _).isInfix.trans hhead)
  · exact (cut_snd_suffix ':' _).isInfix.trans hhead
  · exact (cut_snd_suffix '=' a).isInfix.trans hpart

section

variable (ht : fine t)

include ht

theorem meets_default {default : Text} (hdefault : default <:+: t) (hname : good name) :
    Meets fails good (if default.isEmpty then pure name
      else do return name ++ " = " ++ (← s.expression c (strip default))) := by
  refine .either (.ok hname) ?_
  refine (h.respell s ht ((strip_isInfix _).trans hdefault)).bind fun out hout => .ok ?_
  exact h.spliced hname (h.of_spelled out hout) rfl

theorem good_nameEnd {u : Text} (hname : name <:+: t) (hu : u <:+ name) : good u :=
  h.good_part ht (hu.isInfix.trans hname)

theorem meets_javascriptParameter (p : Parts) (hname : p.name <:+: t)
    (hdefault : p.default <:+: t) :
    Meets fails good (pythonToJavaScriptOne (s.expression c) p) := by
  simp only [pythonToJavaScriptOne]
  split
  · rename_i name heq
    have hgood : good name := h.good_nameEnd ht hname (by rw [heq]; exact ⟨['*', '*'], rfl⟩)
    exact .ok (h.both hgood (h.prefixed (a := " = ") h.empty rfl))
  · rename_i name _ heq
    have hgood : good name := h.good_nameEnd ht hname (by rw [heq]; exact ⟨['*'], rfl⟩)
    exact .ok (h.prefixed hgood rfl)
  · exact h.meets_default ht hdefault (h.good_part ht hname)

/-- A parameter for TypeScript. -/
theorem meets_typescriptParameter (p : Parts) (hname : p.name <:+: t)
    (hhint : p.hint <:+: t) (hdefault : p.default <:+: t) :
    Meets fails good (pythonToTypeScriptOne (s.expression c) p) := by
  have htype : good (TypeName.typescript p.hint) := h.type _ (h.part _ _ ht hhint)
  have htyped : ∀ name, good name → good (name ++ ": " ++ TypeName.typescript p.hint) :=
    fun name hgood =>
    h.spliced hgood htype rfl
  simp only [pythonToTypeScriptOne]
  split
  · rename_i name heq
    have hgood : good name := h.good_nameEnd ht hname (by rw [heq]; exact ⟨['*', '*'], rfl⟩)
    exact .ok (h.both hgood (h.prefixed (a := ": Record<string, any> = ") h.empty rfl))
  · rename_i name _ heq
    have hgood : good name := h.good_nameEnd ht hname (by rw [heq]; exact ⟨['*'], rfl⟩)
    exact .ok (h.suffixed (htyped _ (h.prefixed hgood rfl)) rfl)
  · exact h.meets_default ht hdefault (htyped _ (h.good_part ht hname))

theorem meets_phpParameter (p : Parts) (hname : p.name <:+: t)
    (hdefault : p.default <:+: t) :
    Meets fails good (pythonToPhpOne (s.expression c) p) := by
  simp only [pythonToPhpOne]
  split
  · rename_i name heq
    have hgood : good (name.dropWhile (· = '*')) := h.good_nameEnd ht hname
      ((dropWhile_suffix _).trans (by rw [heq]; exact ⟨['*'], rfl⟩))
    exact .ok (h.prefixed hgood rfl)
  · exact h.meets_default ht hdefault (h.prefixed (a := "$") (h.good_part ht hname) rfl)

theorem good_javaParameters : ∀ p ∈ pythonToJava t, good p := by
  intro p hp
  obtain ⟨a, ha, heq⟩ := mem_filterMap.mp hp
  have hname : good ((Parts.of a).name.dropWhile (· = '*')) := by
    refine h.good_part ht (((dropWhile_suffix _).isInfix.trans (strip_isInfix _)).trans ?_)
    exact ((cut_fst_isPrefix ':' _).isInfix.trans (cut_fst_isPrefix '=' a).isInfix).trans
      (infix_of_mem_splitArguments ha)
  simp only at heq
  split at heq
  · cases heq
  · split at heq
    · obtain rfl := Option.some.inj heq
      exact h.prefixed hname rfl
    · obtain rfl := Option.some.inj heq
      exact h.spliced (h.fixed (all_notBrace_java _)) hname rfl

end

theorem good_choice (b : Bool) {x y : String} (hx : x.toList.all notBrace = true)
    (hy : y.toList.all notBrace = true) : good (if b then x else y).toList := by
  cases b
  · exact h.fixed hy
  · exact h.fixed hx

theorem good_parameterList {given : List Text} (hgiven : ∀ p ∈ given, good p) :
    good ("(" ++ Text.join ", " given ++ ")") :=
  h.surround (h.join (h.fixed rfl) hgiven) rfl rfl

theorem good_typedVariable {type : Option Text} (htarget : good target)
    (htype : ∀ t, type = some t → good t) (hvalue : good value) :
    good (typedVariable target type value) := by
  simp only [typedVariable]
  split
  · rename_i first rest
    exact h.spliced (h.spliced htarget (htype _ rfl) rfl) hvalue rfl
  · exact h.spliced htarget hvalue rfl

theorem good_javaType (hint : Option Text) (value : Text) : good (javaType hint value) := by
  simp only [javaType]
  split
  · exact h.fixed (all_notBrace_java _)
  · cases Literal.Kind.of? value with
    | none => exact h.fixed rfl
    | some kind => cases kind <;> exact h.fixed rfl

variable (ha : Arrives c fails fine good s l)

include ha

theorem meets_parameters (k : Nat) :
    Meets fails (fun given => ∀ p ∈ given, good p) (parameters c s (l.group k)) := by
  have hfine := h.part _ _ ha.line (ha.groups k)
  cases c
  case toTypeScript =>
    exact meets_writeEach fun p hname hhint hdefault =>
      h.meets_typescriptParameter hfine p hname hhint hdefault
  case toJava => exact .ok (h.good_javaParameters hfine)
  case toPhp => exact meets_writeEach fun p hname _ hdefault =>
    h.meets_phpParameter hfine p hname hdefault
  all_goals exact meets_writeEach fun p hname _ hdefault =>
    h.meets_javascriptParameter hfine p hname hdefault

theorem fine_hint {k : Nat} {hint : Text} (hhint : l.group? k = some hint) : fine hint := by
  have hgroup : l.group k = hint := by rw [Classified.group, hhint]; rfl
  exact h.part _ _ ha.line (hgroup ▸ ha.groups k)

theorem good_typescriptType {type : Text} (htype : typescriptType? (l.group? 2) value = some type) :
    good type := by
  simp only [typescriptType?] at htype
  split at htype
  · rename_i hint hhint
    obtain rfl := Option.some.inj htype
    exact h.type _ (h.fine_hint ha hhint)
  · obtain ⟨kind, -, rfl⟩ := Option.map_eq_some_iff.mp htype
    cases kind <;> exact h.fixed rfl

variable (hkind : isContinuation l.kind = false)

include hkind

/-- The visit of a class header. -/
theorem meets_classHeader : Meets fails (Outcome c good s l) (classHeader c s l) := by
  have hname := h.good_group ha 1
  have hextension : good (if (strip (l.group 2)).isEmpty || strip (l.group 2) = "object" then []
      else " extends " ++ strip (l.group 2)) := by
    split
    · exact h.nil
    · exact h.prefixed (h.good_part ha.line ((strip_isInfix _).trans (ha.groups 2))) rfl
  have htext : ∀ start : Text, start.all notBrace = true → good (start ++ l.group 1 ++
      if (strip (l.group 2)).isEmpty || strip (l.group 2) = "object" then []
      else " extends ".toList ++ strip (l.group 2)) := fun start hstart =>
    h.both (h.prefixed hname hstart) hextension
  by_cases hplain : c = .plain
  · simp only [classHeader, if_pos hplain]
    exact h.meets_otherwise ha hkind
  · simp only [classHeader, if_neg hplain]
    refine .ok ?_
    by_cases hjava : c = .toJava
    · simp only [if_pos hjava]
      refine ⟨⟨rfl, rfl, rfl, rfl, rfl, rfl, rfl, rfl, rfl⟩, fun name hmem => ?_, fun _ => ?_, ?_⟩
      · rcases mem_cons.mp hmem with rfl | hmem
        · exact .inr hname
        · exact .inl hmem
      · exact ⟨rfl, rfl, fun _ hi => .inl hi⟩
      · exact .opening hkind rfl (by decide) (by rw [append_nil]; rfl) (htext _ (by decide)) h.nil
    · simp only [if_neg hjava]
      exact .header hkind (by decide) (fun heq => absurd heq hjava) (htext _ (by decide)) h.nil

omit ha in
theorem outcome_functionText (hjava : c ≠ .toJava) {text : Text} {names : List Text}
    (htext : good text) :
    Outcome c good s l (header { s with decorators := [] } text .function names) := by
  have hquiet : Quiet s { s with decorators := [] } :=
    ⟨⟨rfl, rfl, rfl, rfl, rfl, rfl, rfl, rfl, rfl⟩, rfl, rfl, rfl, fun _ hi => hi⟩
  exact .of_quiet hquiet (.header hkind (by decide) (fun heq => absurd heq hjava) htext h.nil)

theorem meets_untypedFunction (hjava : c ≠ .toJava) {constructor : Text} {static method : String}
    (hfixed : [constructor, static.toList, method.toList].all (·.all notBrace) = true) :
    Meets fails (Outcome c good s l) (untypedFunction c s l constructor static method) := by
  have hname := h.good_group ha 1
  simp only [all_cons, all_nil, Bool.and_true, Bool.and_eq_true] at hfixed
  simp only [untypedFunction, takeStatic]
  refine (h.meets_parameters ha 2).bind fun given hgiven => ?_
  have hlist := h.good_parameterList hgiven
  refine ha.meets_inClassBody.bind fun inClass _ => .ok (h.outcome_functionText hkind hjava ?_)
  split
  · refine h.both (h.both ?_ ?_) hlist
    · exact h.good_choice _ hfixed.2.1 hfixed.2.2
    · split
      · exact h.fixed hfixed.1
      · exact hname
  · exact h.both (h.prefixed hname rfl) hlist

theorem meets_typescriptFunction (hjava : c ≠ .toJava) :
    Meets fails (Outcome c good s l) (typescriptFunction c s l) := by
  have hname := h.good_group ha 1
  have hresult :
      good (if (l.group 3).isEmpty then [] else ": " ++ TypeName.typescript (l.group 3)) := by
    split
    · exact h.nil
    · exact h.prefixed (h.type _ (h.part _ _ ha.line (ha.groups 3))) rfl
  simp only [typescriptFunction, takeStatic]
  refine (h.meets_parameters ha 2).bind fun given hgiven => ?_
  have hlist := h.good_parameterList hgiven
  refine ha.meets_inClassBody.bind fun inClass _ => .ok (h.outcome_functionText hkind hjava ?_)
  split
  · split
    · exact h.prefixed hlist rfl
    · exact h.both (h.both (h.both (h.good_choice _ rfl rfl) hname) hlist) hresult
  · exact h.both (h.both (h.prefixed hname rfl) hlist) hresult

/-- The visit of a function header for Java. -/
theorem meets_javaFunction (hjava : c = .toJava) :
    Meets fails (Outcome c good s l) (javaFunction s l) := by
  have hname := h.good_group ha 1
  have hlist : good (.join ", " (pythonToJava (l.group 2))) :=
    h.join (h.fixed rfl) (h.good_javaParameters (h.part _ _ ha.line (ha.groups 2)))
  have hresult : good (if !(l.group 3).isEmpty then TypeName.java (l.group 3) else "Object") := by
    split
    · exact h.fixed (all_notBrace_java _)
    · exact h.fixed rfl
  have htyped : ∀ start : Text, good start →
      good (start ++ (if !(l.group 3).isEmpty then TypeName.java (l.group 3) else "Object") ++
      " " ++ l.group 1 ++ "(" ++ Text.join ", " (pythonToJava (l.group 2)) ++ ")") :=
    fun start hstart =>
      h.suffixed (h.spliced (h.spliced (h.both hstart hresult) hname rfl) hlist rfl) rfl
  -- Whatever the text of the header, its result type is remembered for the line to be written.
  have houtcome : ∀ (isTyped : Bool) (text : Text) (names : List Text), good text →
      Outcome c good s l
      (header { s with
        decorators := [], untyped := (if isTyped then none else some s.output.size) :: s.untyped }
        text .function names) := by
    intro isTyped text names htext
    refine ⟨⟨rfl, rfl, rfl, rfl, rfl, rfl, rfl, rfl, rfl⟩, fun _ hmem => .inl hmem,
      fun _ => ⟨rfl, rfl, ?_⟩, ?_⟩
    · intro i hi
      rcases mem_cons.mp hi with hi | hi
      · cases isTyped with
        | true => cases hi
        | false => exact .inr ⟨Option.some.inj hi, hkind, _, rfl⟩
      · exact .inl hi
    · exact .opening hkind rfl (by decide) (by rw [append_nil]; rfl) htext h.nil
  simp only [javaFunction, takeStatic]
  refine ha.meets_inClassBody.bind fun inClass hclass => ?_
  refine .ite (fun hin => .either ?_ ?_) fun _ => .either ?_ ?_
  · refine (ha.className hjava (hclass hin)).remember.bind fun name hmem => ?_
    have hmember : name ∈ s.classNames := by
      cases hnames : s.classNames with
      | nil => simp [hnames, innermost] at hmem
      | cons first rest =>
        obtain rfl : first = name := by simpa [hnames, innermost] using hmem.1
        exact mem_cons_self
    refine .bind (.ok ?_) fun text htext => .ok (houtcome _ text _ htext)
    exact h.suffixed (h.both (h.surround (ha.classNames name hmember) rfl rfl) hlist) rfl
  · refine .bind (.ok ?_) fun text htext => .ok (houtcome _ text _ htext)
    exact htyped _ (h.good_choice _ rfl rfl)
  · exact .bind (.ok (h.fixed rfl)) fun text htext => .ok (houtcome _ text _ htext)
  · refine .bind (.ok ?_) fun text htext => .ok (houtcome _ text _ htext)
    exact htyped _ (h.fixed rfl)

theorem meets_functionHeader : Meets fails (Outcome c good s l) (functionHeader c s l) := by
  cases c
  case plain => exact h.meets_otherwise ha hkind
  case toJavaScript => exact h.meets_untypedFunction ha hkind (by decide) (by decide)
  case toTypeScript => exact h.meets_typescriptFunction ha hkind (by decide)
  case toJava => exact h.meets_javaFunction ha hkind rfl
  case toPhp => exact h.meets_untypedFunction ha hkind (by decide) (by decide)

omit ha in
theorem outcome_mainGuard : Outcome c good s l (mainGuard c s) := by
  simp only [mainGuard]
  split
  · refine ⟨⟨rfl, rfl, rfl, rfl, rfl, rfl, rfl, rfl, rfl⟩, fun _ hmem => .inl hmem,
      fun _ => ⟨rfl, rfl, ?_⟩, ?_⟩
    · intro i hi
      rcases mem_cons.mp hi with hi | hi
      · cases hi
      · exact .inl hi
    · exact .opening hkind rfl (by decide) (by rw [append_nil]; rfl) (h.fixed (by decide)) h.nil
  · rename_i hjava
    exact ⟨⟨rfl, rfl, rfl, rfl, rfl, rfl, rfl, rfl, rfl⟩, fun _ hmem => .inl hmem, fun heq =>
      absurd heq hjava, .silent hkind rfl⟩

theorem meets_bound
    {declaration : Text} (htarget : target <:+: l.line) (hdeclaration : good declaration)
    (hvalue : good value) : Meets fails (Outcome c good s l) (do
      let (isNew, t) ← s.declare target
      if isNew then return (t, .line (t.terminate declaration))
      return (t, .line (t.terminate ((← t.expression c target) ++ " = " ++ value)))) := by
  refine (ha.declare target).remember.bind fun r hr => ?_
  obtain ⟨isNew, t⟩ := r
  have hquiet := quiet_declare hr.1
  have hpending := hquiet.pendingScope.trans ha.pending
  refine .ite (fun _ => .ok (.of_quiet hquiet (.line hpending hkind (h.terminate hdeclaration))))
    fun _ => ?_
  refine (h.respell t ha.line htarget).bind fun out hout => .ok (.of_quiet hquiet ?_)
  exact .line hpending hkind
    (h.terminate (h.spliced (h.of_spelled out hout) hvalue rfl))

theorem meets_javascriptAssignment :
    Meets fails (Outcome c good s l) (javascriptAssignment c s l) := by
  simp only [javascriptAssignment]
  refine (h.group ha s 3).bind fun value hvalue => ?_
  have htyped : good (typedVariable (l.group 1)
      (if c = .toTypeScript then typescriptType? (l.group? 2) value else none) value) := by
    refine h.good_typedVariable (h.good_group ha 1) (fun t ht => ?_) (h.of_spelled _ hvalue)
    split at ht
    · exact h.good_typescriptType ha ht
    · cases ht
  refine ha.meets_inClassBody.bind fun inClass _ => .either (.ok ?_) ?_
  · exact .line ha.pending hkind (h.terminate htyped)
  · exact h.meets_bound ha hkind (ha.groups 1) (h.prefixed htyped rfl) (h.of_spelled _ hvalue)

theorem meets_javaAssignment : Meets fails (Outcome c good s l) (javaAssignment c s l) := by
  simp only [javaAssignment]
  refine (h.group ha s 3).bind fun value hvalue => ?_
  have hcollection := h.collection _ hvalue
  have hdeclaration : good (javaType (l.group? 2) (l.group 3) ++ " " ++ l.group 1 ++ " = " ++
      Expression.ToJava.collection value) :=
    h.spliced (h.spliced (h.good_javaType _ _) (h.good_group ha 1) rfl) hcollection rfl
  refine ha.meets_inClassBody.bind fun inClass _ => .either (.ok ?_) ?_
  · exact .line ha.pending hkind (h.terminate (h.prefixed hdeclaration rfl))
  · exact h.meets_bound ha hkind (ha.groups 1) hdeclaration hcollection

theorem meets_phpAssignment : Meets fails (Outcome c good s l) (phpAssignment c s l) := by
  simp only [phpAssignment]
  refine ha.meets_inClassBody.bind fun inClass _ => .either ?_ ?_
  · refine (h.group ha s 3).bind fun value hvalue => .ok (.line ha.pending hkind (h.terminate ?_))
    exact h.both (h.surround (h.good_group ha 1) rfl rfl) (h.of_spelled _ hvalue)
  · refine (ha.declare (l.group 1)).remember.bind fun r hr => ?_
    obtain ⟨isNew, t⟩ := r
    have hquiet := quiet_declare hr.1
    refine (h.group ha t 1).bind fun left hleft => (h.group ha t 3).bind fun value hvalue => ?_
    refine .ok
      (.of_quiet hquiet (.line (hquiet.pendingScope.trans ha.pending) hkind (h.terminate ?_)))
    exact h.spliced (h.of_spelled _ hleft) (h.of_spelled _ hvalue) rfl

theorem meets_assignment : Meets fails (Outcome c good s l) (assignment c s l) := by
  cases c
  case plain => exact h.meets_otherwise ha hkind
  case toJava => exact h.meets_javaAssignment ha hkind
  case toPhp => exact h.meets_phpAssignment ha hkind
  all_goals exact h.meets_javascriptAssignment ha hkind

omit hkind in
/-- The visit of a line has an outcome. -/
theorem meets_visit : Meets fails (Outcome c good s l) (visit c s l) := by
  cases hkind : l.kind <;> simp only [visit, hkind]
  case importLine =>
    refine .ok (.line ha.pending (by rw [hkind]; rfl) ?_)
    exact h.prefixed (h.of_fine _ ha.line) rfl
  case decoratorLine => exact .ok (h.outcome_decoratorLine ha (by rw [hkind]; rfl))
  case classHeader => exact h.meets_classHeader ha (by rw [hkind]; rfl)
  case functionHeader => exact h.meets_functionHeader ha (by rw [hkind]; rfl)
  case mainGuard => exact .ok (h.outcome_mainGuard (by rw [hkind]; rfl))
  case ifHeader | whileHeader => exact h.meets_conditionHeader ha (by rw [hkind]; rfl) rfl
  case elifHeader => exact h.meets_elifHeader ha (by rw [hkind]; rfl)
  case elseHeader | finallyHeader =>
    exact .ok (.continued (by rw [hkind]; rfl) (h.fixed rfl))
  case rangeForHeader => exact h.meets_rangeForHeader ha hkind
  case forHeader => exact h.meets_forHeader ha (by rw [hkind]; rfl)
  case printLine => exact h.meets_printLine ha (by rw [hkind]; rfl)
  case assignment => exact h.meets_assignment ha (by rw [hkind]; rfl)
  case returnLine => exact h.meets_returnLine ha (by rw [hkind]; rfl)
  case tryHeader =>
    exact .ok (.header (by rw [hkind]; rfl) (by decide) (fun _ => rfl) (h.fixed (by decide)) h.nil)
  case exceptHeader => exact .ok (h.outcome_exceptHeader ha (by rw [hkind]; rfl))
  case passLine => exact .ok (.stay ha.pending (by rw [hkind]; rfl) fun t ht => by cases ht)
  case raiseLine => exact h.meets_raiseLine ha (by rw [hkind]; rfl)
  all_goals exact h.meets_otherwise ha (by rw [hkind]; rfl)

end Discipline

end CodeConverter.Indent

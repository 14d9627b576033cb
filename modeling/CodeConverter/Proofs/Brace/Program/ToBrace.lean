import CodeConverter.Proofs.Brace.Program.Scope
import CodeConverter.Proofs.Expression.Ending
import CodeConverter.Proofs.Line.CSharp

/-!
# Programs for JavaScript

Every layout of a program tree gives the same lines. Namespaces leave no trace, and the closing
brace of a block shares its line with the `else` behind it.
-/

namespace CodeConverter.Brace.ToBrace

open Text Program Block Grammar List Conversion Expression.ToJavaScript

/-- The headers of blocks that are no conditionals. -/
inductive Heading where
  | namespaced (name : Text)
  | classBody (name : Text)
  | method (type name : Text) (parameters : List (Text × Text))
  | loop (condition : Text)

namespace Heading

/-- The header of a block. -/
def text : Heading → Text
  | .namespaced name => CSharp.namespaceText name
  | .classBody name => CSharp.classText name
  | .method type name parameters => CSharp.methodText type name parameters
  | .loop condition => conditionText "while" condition

/-- The scope that a header opens. -/
def scope : Heading → Scope
  | .namespaced _ => .silent
  | .classBody _ => .classBody
  | .method _ _ _ => .function
  | .loop _ => .block

end Heading

/-- The programs that are laid out: plain code, with methods in classes only. The name of a call is
any identifier that does not start with the word that returns, and so is that of a parameter; the
names of headers have word characters only. -/
def rules : Rules Heading where
  call name arguments := CSharp.IsIdentifier name ∧ name.takeWhile isWord ≠ "return" ∧
    Plain arguments
  condition := Plain
  header around := fun
    | .namespaced name => IsName name ∧ CSharp.IsIdentifier name
    | .classBody name => IsName name ∧ CSharp.IsIdentifier name
    | .method type name parameters => (∃ outer, around = some (.classBody outer)) ∧
        CSharp.IsResult type ∧
        (IsName name ∧ CSharp.IsIdentifier name) ∧ ∀ p ∈ parameters, CSharp.IsType p.1 ∧
        CSharp.IsIdentifier p.2
    | .loop condition => Plain condition
  body _ := True

/-- How JavaScript writes a program. -/
def javascript : Target Heading where
  size := 2
  call name arguments := csharpToJavaScript.expression (callText name arguments ++ ";")
  condition text := do return "(" ++ (← csharpToJavaScript.expression text) ++ ")"
  header := fun
    | .namespaced _ => return none
    | .classBody name => return some ("class " ++ name)
    | .method _ name parameters =>
        return some (name ++ "(" ++ join ", " (parameters.map Prod.snd) ++ ")")
    | .loop condition => do
      return some ("while (" ++ (← csharpToJavaScript.expression condition) ++ ")")

/-- The scopes around a statement: one for every header, the innermost first. -/
structure Within (around : Option Heading) (scopes : List Scope) : Prop where
  proper : ∀ scope ∈ scopes, scope ≠ .skipped ∧ scope ≠ .literal
  innermost : ∀ heading, around = some heading → scopes.head? = some heading.scope

variable {scopes : List Scope} {scope : Scope} {out : List Text} {s : State} {text : Text}
    {around : Option Heading}
  {start : List Text → State → Prop} {awaiting : Bool} {parameters : List (Text × Text)}
  {target : Target Heading}

namespace Within

section

variable (h : Within around scopes)

include h

theorem not_skipped : scopes.contains .skipped = false := by
  rw [contains_eq_mem, decide_eq_false_iff_not]
  exact fun hmem => (h.proper _ hmem).1 rfl

theorem inLiteral (hs : At scopes awaiting out s) : s.inLiteral = false := by
  rw [State.inLiteral, hs.scopes, decide_eq_false_iff_not]
  exact fun hhead => (h.proper _ (mem_of_mem_head? hhead)).2 rfl

theorem heading (heading : Heading) : Within (some heading) (heading.scope :: scopes) where
  proper := by
    intro scope hscope
    rcases mem_cons.mp hscope with rfl | hscope
    · cases heading <;> exact ⟨nofun, nofun⟩
    · exact h.proper scope hscope
  innermost := by
    intro other hother
    cases hother
    rfl

theorem block : Within none (.block :: scopes) where
  proper := forall_mem_cons.mpr ⟨⟨nofun, nofun⟩, h.proper⟩
  innermost := nofun

end

end Within

theorem level_shown (h : csharpToJavaScript.hides scope = false) :
    level .csharpToJavaScript (scope :: scopes) = level .csharpToJavaScript scopes + 1 := by
  rw [level, level, filter_cons_of_pos (by rw [h]; rfl), length_cons, Nat.add_assoc]

theorem level_silent :
    level .csharpToJavaScript (.silent :: scopes) = level .csharpToJavaScript scopes := by
  rw [level, level, filter_cons_of_neg (by decide)]

theorem absorbs_brace : Absorbs .csharpToJavaScript where
  unprepared := by decide
  kind := rfl
  visit := by
    intro s hs
    show Except.ok (openBrace s) = _
    rw [openBrace, hs]
    rfl

theorem closeBlock_at (hs : At (scope :: scopes) awaiting out s) :
    ∃ t, s.closeBlock .csharpToJavaScript = .ok (some scope, t) ∧ At scopes awaiting out t := by
  have hnames := hs.names
  rw [State.closeBlock, hs.scopes]
  by_cases hclass : scope = .classBody
  · subst hclass
    rw [count_cons_self] at hnames
    obtain ⟨name, names, hcons⟩ := exists_cons_of_length_pos (l := s.classNames) (by omega)
    refine ⟨{ s with scopes := scopes, classNames := names }, ?_, rfl, hs.awaiting, hs.output, ?_⟩
    · rw [hcons]
      rfl
    · rw [hcons, length_cons] at hnames
      show names.length = _
      omega
  · have hkeeps : csharpToJavaScript.endsClass scope = false := by
      cases scope <;> first | rfl | exact absurd rfl hclass
    rw [count_cons_of_ne hclass] at hnames
    refine ⟨{ s with scopes := scopes }, ?_, rfl, hs.awaiting, hs.output, hnames⟩
    simp only [hkeeps]
    rfl

/-- The state after the brace of a block, whose line is still to be counted among those written. -/
def Closed (scopes : List Scope) (out : List Text) (s : State) : Prop :=
  At scopes false (out ++ [lineAt 2 (level .csharpToJavaScript scopes) "\x7d"]) s

theorem writes_closing_silent (h : Within around (.silent :: scopes)) :
    Writes .csharpToJavaScript (At (.silent :: scopes) false) (At scopes false) [.closing] [] := by
  refine writes_piece .nothing absorbs_brace (by decide) h.not_skipped (fun out s hs => ?_) rfl
    fun output => (append_nil _).symm
  obtain ⟨t, hclose, ht⟩ := closeBlock_at hs
  refine ⟨hs.scopes, hs.awaiting, t, ?_, ht⟩
  show closeBrace .csharpToJavaScript s "\x7d" = _
  rw [closeBrace, hclose]
  rfl

/-- A closing brace is written at the level of the scopes around it. -/
theorem writes_closing (h : Within around (scope :: scopes))
    (hscope : csharpToJavaScript.hides scope = false) :
    Writes .csharpToJavaScript (At (scope :: scopes) false) (At scopes false) [.closing]
      [lineAt 2 (level .csharpToJavaScript scopes) "\x7d"] := by
  have hdepth :
      min (level .csharpToJavaScript (scope :: scopes)) (level .csharpToJavaScript scopes) =
      level .csharpToJavaScript scopes := by
    rw [level_shown hscope]
    omega
  refine writes_piece (.line "\x7d") absorbs_brace (by decide) h.not_skipped (fun out s hs =>
    ?_) hdepth (emit_line (by decide) (by decide))
  obtain ⟨t, hclose, ht⟩ := closeBlock_at hs
  refine ⟨hs.scopes, hs.awaiting, t, ?_, ht⟩
  show closeBrace .csharpToJavaScript s "\x7d" = _
  rw [closeBrace, hclose]
  show Except.ok (t, if (some scope).any csharpToJavaScript.hides = true
      then Code.nothing else _) = _
  rw [Option.any_some, hscope]
  rfl

theorem writes_closed (h : Within around (.block :: scopes)) :
    Writes .csharpToJavaScript (At (.block :: scopes) false) (Closed scopes) [.closing] [] := by
  intro out s hs
  obtain ⟨t, ht, hclosed⟩ := writes_closing h rfl out s hs
  refine ⟨t, ht, ?_⟩
  rw [append_nil]
  exact hclosed

/-- A header is written with its brace and opens its scope. -/
theorem writes_block {opening : Text} {front : List Piece} (hopens : Opens opening front)
    (hplain : Plain opening)
    (hne : opening ≠ []) (hline : '\n' ∉ text)
    (hscope : csharpToJavaScript.hides scope = false)
    (hscopes : (scope :: scopes).contains .skipped = false)
    (hstart : ∀ tail, IsTail tail → ∀ out s, start out s → s.scopes = scopes ∧
    s.awaitingBrace = false ∧
      ∃ t, visit .csharpToJavaScript s (classify CSharp.all (opening ++ tail)) =
      .ok (t, .line (text ++ " \x7b")) ∧
        At (scope :: scopes) (!endsWith (stripEnd (opening ++ tail)) "\x7b") out t) :
    Writes .csharpToJavaScript start (At (scope :: scopes) false) front
      [lineAt 2 (level .csharpToJavaScript scopes) (text ++ " \x7b")] := by
  have hdepth :
      min (level .csharpToJavaScript scopes) (level .csharpToJavaScript (scope :: scopes)) =
      level .csharpToJavaScript scopes := by
    rw [level_shown hscope]
    omega
  exact writes_header (.line (text ++ " \x7b")) hopens hplain hne absorbs_brace hscopes
    hstart hdepth (emit_line (by simp) (by simp [hline]))

theorem not_mem_expression {t : Text} (h : Plain t) : '\n' ∉ ofCSharp t := by
  intro hmem
  rcases addsOnly_ofCSharp t _ hmem with hin | hnew
  · exact h.not_mem rfl hin
  · cases hnew

theorem generic_statement {t e : Text} (hs : s.inLiteral = false)
    (he : csharpToJavaScript.expression (t ++ ";") = .ok e) :
    generic .csharpToJavaScript s (t ++ ";") = .ok (s, .line e) := by
  have hliteral : opensLiteral (t ++ [';']) = false := by
    simp only [opensLiteral, endsIn_concat]
    rfl
  have hbrace : endsIn (fun c => c = '{') (t ++ [';']) = false := endsIn_concat _ _ _
  simp only [generic, hs]
  show (if endsIn (fun c => c = '{') (t ++ [';']) = true then _ else _) = _
  rw [hbrace]
  show (if opensLiteral (t ++ [';']) = true then _ else _) = _
  rw [hliteral]
  show (csharpToJavaScript.expression (t ++ ";") >>= fun e =>
      pure (s, Code.line (terminate _ s e))) = _
  rw [he]
  rfl

section Parameters

variable {name ty : Text} {parameters : List (Text × Text)}

theorem foldr_pushWord (hname : IsIdentifier name) (ws : List Text) :
    name.foldr pushWord (false, ws) = (true, name :: ws) := by
  have hchar : ∀ c ∈ name, ¬ isBlank c = true := fun c hc => by simp [hname.not_blank c hc]
  have hne := hname.1
  clear hname
  induction name with
  | nil => exact absurd rfl hne
  | cons c name ih =>
    have hc := hchar c mem_cons_self
    rw [foldr_cons]
    by_cases hnil : name = []
    · rw [hnil]
      exact pushWord_of_closed hc ws
    · rw [ih (fun d hd => hchar d (mem_cons_of_mem _ hd)) hnil]
      exact pushWord_of_open hc name ws

theorem words_parameterText (htype : IsIdentifier ty) (hname : IsIdentifier name) :
    words (CSharp.parameterText (ty, name)) = [ty, name] := by
  have hspace : pushWord ' ' (true, [name]) = (false, [name]) := pushWord_of_isBlank rfl true [name]
  rw [words, CSharp.parameterText, foldr_append, foldr_cons, foldr_pushWord hname, hspace,
    foldr_pushWord htype]

theorem isEntry_parameterText (htype : IsIdentifier ty) (hname : IsIdentifier name) :
    IsEntry (CSharp.parameterText (ty, name)) where
  nonempty := by simp [CSharp.parameterText]
  stripped := by
    obtain ⟨c, rest, rfl⟩ := exists_cons_of_ne_nil htype.1
    refine strip_eq_self_iff.mpr ⟨fun d hd => ?_, fun d hd => ?_⟩
    · obtain rfl : c = d := Option.some.inj hd
      exact htype.not_blank c mem_cons_self
    · have hlast : (CSharp.parameterText (c :: rest, name)).getLast? = name.getLast? := by
        rw [CSharp.parameterText, append_cons, getLast?_append_of_ne_nil _ hname.1]
      rw [hlast] at hd
      exact hname.not_blank d (mem_of_mem_getLast? hd)
  plain := by
    intro c hc
    rcases mem_append.mp hc with hin | hin
    · exact htype.isEntry.plain c hin
    · rcases mem_cons.mp hin with rfl | hin
      · decide
      · exact hname.isEntry.plain c hin

theorem csharpParameter_parameterText (htype : CSharp.IsType ty) (hname : IsIdentifier name) :
    Parameter.csharpParameter (CSharp.parameterText (ty, name)) = some name := by
  have hequals : '=' ∉ CSharp.parameterText (ty, name) := by
    have htype := htype.1.not_mem (d := '=') rfl
    have hname := hname.not_mem (d := '=') rfl
    simp [CSharp.parameterText, htype, hname]
  have hmode : ty ≠ "params".toList := htype.2 "params" (by decide)
  simp only [Parameter.csharpParameter, cut_of_not_mem hequals, words_parameterText htype.1 hname,
    if_neg hmode]
  rfl

theorem csharpToJavaScript_parametersText
    (h : ∀ p ∈ parameters, CSharp.IsType p.1 ∧ CSharp.IsIdentifier p.2) :
    Parameter.csharpToJavaScript (CSharp.parametersText parameters) = parameters.map Prod.snd := by
  have hentries : ∀ entry ∈ parameters.map CSharp.parameterText, IsEntry entry := by
    intro entry hentry
    obtain ⟨p, hp, rfl⟩ := mem_map.mp hentry
    exact isEntry_parameterText (h p hp).1.1 (h p hp).2.1
  rw [Parameter.csharpToJavaScript, CSharp.parametersText, splitArguments_entries hentries,
    filterMap_map, ← filterMap_eq_map]
  exact filterMap_congr fun p hp => csharpParameter_parameterText (h p hp).1 (h p hp).2.1

end Parameters

section Statements

variable {name arguments condition : Text} {front : List Piece}

/-- A call is written with its semicolon. -/
theorem writes_call (h : Within around scopes) (hrule : rules.call name arguments) :
    ∃ e, javascript.call name arguments = .ok e ∧
      Writes .csharpToJavaScript (At scopes false) (At scopes false)
      [.statement (callText name arguments ++ ";")]
        [lineAt 2 (level .csharpToJavaScript scopes) e] := by
  obtain ⟨⟨hname, -⟩, hother, harguments⟩ := hrule
  have hplain : Plain (callText name arguments ++ ";") :=
    (plain_callText hname harguments).append (.fixed rfl)
  have hends : endsIn (fun c => c = ';')
      (ofCSharp (callText name arguments ++ ";")) = true :=
    (endsAlike_ofCSharp _).last (endsIn_concat _ _ _)
  have hkind := CSharp.classify_call hname (harguments.not_mem (by decide)) hother
  refine ⟨_, rfl,
    writes_piece (.line _) absorbs_brace (by simp [Piece.text]) h.not_skipped (fun out s hs => ?_)
    (Nat.min_self _) (emit_line (ne_nil_of_endsIn hends) (not_mem_expression hplain))⟩
  refine ⟨hs.scopes, hs.awaiting, s, ?_, hs⟩
  show visit .csharpToJavaScript s (classify CSharp.all (callText name arguments ++ ";")) = _
  simp only [visit, hkind, classify_line]
  exact generic_statement (h.inLiteral hs) rfl

/-- A header with a condition is written with its keyword and the respelled condition. -/
theorem writes_condition (start : String) (target : Text) (kind : LineKind)
    (hstart : start.toList.all isPlain = true)
    (htarget : '\n' ∉ target) (h : Within around scopes) (hcondition : Plain condition)
    (hopens : Opens (conditionText start condition) front) (hclass : ∀ tail, IsTail tail →
      (classify CSharp.all (conditionText start condition ++ tail)).kind = kind ∧
      (classify CSharp.all (conditionText start condition ++ tail)).group 1 = condition)
    (hvisit : ∀ s l, l.kind = kind →
    visit .csharpToJavaScript s l = conditionHeader .csharpToJavaScript s l target) :
    Writes .csharpToJavaScript (At scopes false) (At (.block :: scopes) false) front
      [lineAt 2 (level .csharpToJavaScript scopes)
        (target ++ " (" ++ ofCSharp condition ++ ")" ++ " \x7b")] := by
  refine writes_block hopens (plain_conditionText hstart hcondition) (by simp [conditionText]) ?_
    rfl h.block.not_skipped
    fun tail htail out s hs => ?_
  · simp [htarget, not_mem_expression hcondition]
  · obtain ⟨hkind, hgroup⟩ := hclass tail htail
    refine ⟨hs.scopes, hs.awaiting, _, ?_, hs.openBlock (by decide) _⟩
    rw [hvisit s _ hkind, conditionHeader, hgroup, classify_line]
    rfl

section

variable (h : Within around scopes)

include h

/-- The header of a block that continues the one just closed takes the line of its brace. -/
theorem writes_continued {opening : Text} (hopens : Opens opening front) (hplain : Plain opening)
    (hne : opening ≠ []) (hline : '\n' ∉ text)
    (hvisit : ∀ tail, IsTail tail → ∀ s,
    visit .csharpToJavaScript s (classify CSharp.all (opening ++ tail)) =
      .ok (continuedBlock .csharpToJavaScript s (opening ++ tail) text)) :
    Writes .csharpToJavaScript (Closed scopes) (At (.block :: scopes) false) front
      [lineAt 2 (level .csharpToJavaScript scopes) ("\x7d " ++ text ++ " \x7b")] := by
  refine writes_block hopens hplain hne (by simp [hline]) rfl h.block.not_skipped
    fun tail htail out s hs => ?_
  have hback : s.output.back?.map strip = some ['}'] := by
    rw [← Array.getLast?_toList, hs.output, getLast?_concat, Option.map_some]
    have hblanks : ∀ c ∈ replicate (level .csharpToJavaScript scopes * 2) ' ',
        isBlank c = true := by
      intro c hc
      rw [eq_of_mem_replicate hc]
      decide
    have hstrip := strip_append (t := "\x7d") hblanks rfl (forall_mem_nil _)
    rw [append_nil] at hstrip
    exact congrArg some hstrip
  have hpop : s.output.pop.toList = out := by
    rw [Array.toList_pop, hs.output, dropLast_concat]
  refine ⟨hs.scopes, hs.awaiting, _, ?_,
    .openBlock (s := { s with output := s.output.pop }) ⟨hs.scopes, hs.awaiting, hpop, hs.names⟩
    (by decide) _⟩
  rw [hvisit tail htail s, continuedBlock, hback]
  rfl

/-- An `else` header takes the line of the brace before it. -/
theorem writes_else (hopens : Opens "else" front) :
    Writes .csharpToJavaScript (Closed scopes) (At (.block :: scopes) false) front
      [lineAt 2 (level .csharpToJavaScript scopes) ("\x7d " ++ "else" ++ " \x7b")] := by
  refine writes_continued h hopens (.fixed (by decide)) (by decide) (by decide)
    fun tail htail s => ?_
  simp only [visit, CSharp.classify_else htail, classify_line]
  rfl

/-- An `else if` header takes the line of the brace before it. -/
theorem writes_elseIf (hcondition : Plain condition)
    (hopens : Opens (conditionText "else if" condition) front) :
    Writes .csharpToJavaScript (Closed scopes) (At (.block :: scopes) false) front
      [lineAt 2 (level .csharpToJavaScript scopes)
        ("\x7d " ++ ("else if (" ++ ofCSharp condition ++ ")") ++
        " \x7b")] := by
  refine writes_continued h hopens (plain_conditionText rfl hcondition) (by simp [conditionText]) ?_
    fun tail htail s => ?_
  · simp [not_mem_expression hcondition]
  · obtain ⟨hkind, hgroup⟩ := CSharp.classify_elseIf (hcondition.not_mem rfl) htail
    simp only [visit, hkind, elseIfHeader, hgroup, classify_line]
    rfl

/-- The header of a namespace is not written. -/
theorem writes_namespace (hname : IsName name) (hopens : Opens (CSharp.namespaceText name) front) :
    Writes .csharpToJavaScript (At scopes false) (At (.silent :: scopes) false) front [] := by
  have hplain : Plain (CSharp.namespaceText name) :=
    (Plain.fixed rfl).append (plain_of_isIdentifier hname.isIdentifier)
  have hne : CSharp.namespaceText name ≠ [] := append_ne_nil_of_left_ne_nil (by decide) _
  have hdepth :
      min (level .csharpToJavaScript scopes) (level .csharpToJavaScript (.silent :: scopes)) =
      level .csharpToJavaScript scopes := by
    rw [level_silent, Nat.min_self]
  refine writes_header .nothing hopens hplain hne absorbs_brace
    (h.heading (.namespaced name)).not_skipped
    (fun tail htail out s hs => ?_) hdepth fun output => (append_nil _).symm
  obtain ⟨hkind, hgroup⟩ := CSharp.classify_namespace hname htail
  refine ⟨hs.scopes, hs.awaiting, _, ?_, hs.openBlock (by decide) _⟩
  show visit .csharpToJavaScript s (classify CSharp.all _) = _
  simp only [visit, hkind, namespaceLine, if_neg hgroup, classify_line]
  rfl

/-- The header of a class is written with its name, which is remembered. -/
theorem writes_class (hname : IsName name) (hopens : Opens (CSharp.classText name) front) :
    Writes .csharpToJavaScript (At scopes false) (At (.classBody :: scopes) false) front
      [lineAt 2 (level .csharpToJavaScript scopes) ("class " ++ name ++ " \x7b")] := by
  have hplain : Plain (CSharp.classText name) :=
    (Plain.fixed rfl).append (plain_of_isIdentifier hname.isIdentifier)
  have hne : CSharp.classText name ≠ [] := append_ne_nil_of_left_ne_nil (by decide) _
  have hline : '\n' ∉ "class " ++ name :=
    ((Plain.fixed rfl).append (plain_of_isIdentifier hname.isIdentifier)).not_mem rfl
  refine writes_block hopens hplain hne hline rfl (h.heading (.classBody name)).not_skipped
    fun tail htail out s hs => ?_
  obtain ⟨hkind, hfirst, hsecond⟩ := CSharp.classify_class hname htail
  refine ⟨hs.scopes, hs.awaiting,
    (s.enterClass name).openBlock (CSharp.classText name ++ tail) .classBody, ?_, ?_⟩
  · simp only [visit, ToBrace.visit, hkind, visitClass, hfirst, hsecond]
    show Except.ok (classHeader _ _ _ _ _ []) = _
    rw [classHeader, hfirst, classify_line]
    rfl
  · refine ⟨congrArg (cons Scope.classBody) hs.scopes, rfl, hs.output, ?_⟩
    rw [count_cons_self, ← hs.names]
    rfl

end

theorem plain_methodText {type : Text} (htype : CSharp.IsResult type) (hname : IsName name)
    (hparameters : ∀ p ∈ parameters, CSharp.IsType p.1 ∧ CSharp.IsIdentifier p.2) :
    Plain (CSharp.methodText type name parameters) := by
  have hlist : Plain (CSharp.parametersText parameters) := by
    refine plain_join (.fixed rfl) fun entry hentry => ?_
    obtain ⟨p, hp, rfl⟩ := mem_map.mp hentry
    exact (plain_of_isIdentifier (hparameters p hp).1.1).append
      (.cons rfl (plain_of_isIdentifier (hparameters p hp).2.1))
  exact (plain_of_isIdentifier htype.1.isIdentifier).append (.cons rfl
    ((plain_of_isIdentifier hname.isIdentifier).append (.cons rfl (hlist.append (.fixed rfl)))))

/-- The header of a method in a class is written with the names of its parameters. -/
theorem writes_method {type outer : Text} (h : Within (some (.classBody outer)) scopes)
    (htype : CSharp.IsResult type) (hname : IsName name)
    (hparameters : ∀ p ∈ parameters, CSharp.IsType p.1 ∧ CSharp.IsIdentifier p.2)
    (hopens : Opens (CSharp.methodText type name parameters) front) :
    Writes .csharpToJavaScript (At scopes false) (At (.function :: scopes) false) front
      [lineAt 2 (level .csharpToJavaScript scopes)
      (name ++ "(" ++ join ", " (parameters.map Prod.snd) ++ ")" ++ " \x7b")] := by
  have hplain := plain_methodText htype hname hparameters
  have hne : CSharp.methodText type name parameters ≠ [] := append_ne_nil_of_left_ne_nil htype.1.1 _
  have hnames : Plain (join ", " (parameters.map Prod.snd)) := by
    refine plain_join (.fixed rfl) fun entry hentry => ?_
    obtain ⟨p, hp, rfl⟩ := mem_map.mp hentry
    exact plain_of_isIdentifier (hparameters p hp).2.1
  have hline : '\n' ∉ name ++ "(" ++ join ", " (parameters.map Prod.snd) ++ ")" :=
    ((((plain_of_isIdentifier hname.isIdentifier).append (.fixed rfl)).append hnames).append
      (.fixed rfl)).not_mem rfl
  refine writes_block hopens hplain hne hline rfl
    (h.heading (.method type name parameters)).not_skipped
    fun tail htail out s hs => ?_
  obtain ⟨hkind, hgroups⟩ := CSharp.classify_method htype hname hparameters htail
  have hclass : s.inClassBody = true := by
    rw [State.inClassBody, hs.scopes, h.innermost _ rfl]
    rfl
  refine ⟨hs.scopes, hs.awaiting, _, ?_, hs.openBlock (by decide) _⟩
  simp only [visit, ToBrace.visit, hkind, methodHeader, csharpMethod, Classified.group, hgroups,
    classify_line]
  show Except.ok
      (block .csharpToJavaScript s _ (memberHeader s (hasModifier (words []) "static") name
    (join ", " (Parameter.csharpToJavaScript (CSharp.parametersText parameters)))) .function) = _
  rw [csharpToJavaScript_parametersText hparameters, memberHeader, if_pos hclass]
  rfl

end Statements

theorem braced_hidden {depth : Nat} {heading : Heading} {body : Forest Heading} {ls : List Text}
    (hheader : target.header heading = .ok none) (hls : body.braced target depth = .ok ls) :
    (Tree.block heading body).braced target depth = .ok ls := by
  rw [Tree.braced, hheader]
  exact hls

theorem braced_block {depth : Nat} {heading : Heading} {body : Forest Heading} {ls : List Text}
    (hheader : target.header heading = .ok (some text))
    (hls : body.braced target (depth + 1) = .ok ls) :
    (Tree.block heading body).braced target depth =
      .ok (lineAt target.size depth (text ++ " \x7b") :: ls ++
      [lineAt target.size depth "\x7d"]) := by
  rw [Tree.braced]
  exact bind_of_ok hheader (bind_of_ok hls rfl)

/-- A header that is not hidden is written. -/
theorem writes_shown {heading : Heading} {front : List Piece} (h : Within around scopes)
    (hrule : rules.header around heading)
    (hopens : Opens heading.text front)
    (hshown : csharpToJavaScript.hides heading.scope = false) :
    ∃ text, javascript.header heading = .ok (some text) ∧
      Writes .csharpToJavaScript (At scopes false) (At (heading.scope :: scopes) false) front
        [lineAt 2 (level .csharpToJavaScript scopes) (text ++ " \x7b")] := by
  cases heading with
  | namespaced name => cases hshown
  | classBody name => exact ⟨_, rfl, writes_class h hrule.1 hopens⟩
  | method type name parameters =>
    obtain ⟨⟨outer, rfl⟩, htype, hname, hparameters⟩ := hrule
    exact ⟨_, rfl, writes_method h htype hname.1 hparameters hopens⟩
  | loop condition =>
    have hline : '\n' ∉ condition := Plain.not_mem hrule rfl
    exact ⟨_, rfl,
      writes_condition "while" "while" .whileHeader (by decide) (by decide) h hrule hopens
      (fun tail htail => CSharp.classify_while hline htail)
      fun s l hl => by simp only [visit, ToBrace.visit, hl]⟩

mutual

/-- A tree is written at the depth where it stands. -/
theorem writes_tree {around : Option Heading} {scopes : List Scope} {tree : Program.Tree Heading}
    {pieces : List Piece}
    (h : TreePieces Heading.text tree pieces) (hrules : tree.Follows rules around)
    (hwithin : Within around scopes) :
    ∃ ls, tree.braced javascript (level .csharpToJavaScript scopes) = .ok ls ∧
      Writes .csharpToJavaScript (At scopes false) (At scopes false) pieces ls := by
  cases h with
  | call name arguments =>
    obtain ⟨e, he, hwrites⟩ := writes_call hwithin hrules
    refine ⟨_, ?_, hwrites⟩
    rw [Tree.braced, he]
    rfl
  | @block heading body front pieces hopens hbody =>
    obtain ⟨hheader, -, hinner⟩ := hrules
    obtain ⟨ls, hls, hpieces⟩ := writes_forest hbody hinner (hwithin.heading heading)
    cases hhides : csharpToJavaScript.hides heading.scope with
    | true =>
      cases heading with
      | namespaced name =>
        refine ⟨ls, braced_hidden rfl (level_silent ▸ hls), ?_⟩
        have hall := (writes_namespace hwithin hheader.1 hopens).append
          (hpieces.append (writes_closing_silent (hwithin.heading (.namespaced name))))
        rwa [nil_append, append_nil] at hall
      | classBody name | method type name parameters | loop condition => cases hhides
    | false =>
      obtain ⟨text, htext, hfront⟩ := writes_shown hwithin hheader hopens hhides
      rw [level_shown hhides] at hls
      exact ⟨_, braced_block htext hls,
        hfront.append (hpieces.append (writes_closing (hwithin.heading heading) hhides))⟩
  | branch hopens hbody hrest =>
    obtain ⟨hcondition, -, hinner, hothers⟩ := hrules
    have hline : '\n' ∉ _ := Plain.not_mem hcondition rfl
    have hfront :=
      writes_condition "if" "if" .ifHeader (by decide) (by decide) hwithin hcondition hopens
      (fun tail htail => CSharp.classify_if hline htail) fun s l hl => by
        simp only [visit, ToBrace.visit, hl]
    obtain ⟨ls, hls, hpieces⟩ := writes_forest hbody hinner hwithin.block
    obtain ⟨ms, hms, hmore⟩ := writes_branches hrest hothers hwithin
    rw [level_shown rfl] at hls
    refine ⟨_, ?_, hfront.append (hpieces.append ((writes_closed hwithin.block).append hmore))⟩
    rw [Tree.braced]
    exact bind_of_ok rfl (bind_of_ok hls (bind_of_ok hms rfl))

theorem writes_forest {around : Option Heading} {scopes : List Scope} {forest : Forest Heading}
    {pieces : List Piece} (h : ForestPieces Heading.text forest pieces)
    (hrules : forest.Follows rules around) (hwithin : Within around scopes) :
    ∃ ls, forest.braced javascript (level .csharpToJavaScript scopes) = .ok ls ∧
      Writes .csharpToJavaScript (At scopes false) (At scopes false) pieces ls := by
  cases h with
  | nil => exact ⟨[], rfl, .nil⟩
  | cons hfirst hrest =>
    obtain ⟨ls, hls, hpieces⟩ := writes_tree hfirst hrules.1 hwithin
    obtain ⟨ms, hms, hmore⟩ := writes_forest hrest hrules.2 hwithin
    refine ⟨ls ++ ms, ?_, hpieces.append hmore⟩
    rw [Forest.braced]
    exact bind_of_ok hls (bind_of_ok hms rfl)

/-- The other blocks of a conditional chain. The first line written is that of the brace before
them. -/
theorem writes_branches {around : Option Heading} {scopes : List Scope}
    {branches : Branches Heading} {pieces : List Piece}
    (h : BranchesPieces Heading.text branches pieces) (hrules : branches.Follows rules)
    (hwithin : Within around scopes) :
    ∃ ls, branches.braced javascript (level .csharpToJavaScript scopes) = .ok ls ∧
      Writes .csharpToJavaScript (Closed scopes) (At scopes false) pieces ls := by
  cases h with
  | done =>
    refine ⟨_, rfl, fun out s hs => ?_⟩
    exact ⟨s, rfl, hs⟩
  | elseIf hopens hbody hrest =>
    obtain ⟨hcondition, -, hinner, hothers⟩ := hrules
    have hfront := writes_elseIf hwithin hcondition hopens
    obtain ⟨ls, hls, hpieces⟩ := writes_forest hbody hinner hwithin.block
    obtain ⟨ms, hms, hmore⟩ := writes_branches hrest hothers hwithin
    rw [level_shown rfl] at hls
    refine ⟨_, ?_, hfront.append (hpieces.append ((writes_closed hwithin.block).append hmore))⟩
    rw [Branches.braced]
    exact bind_of_ok rfl (bind_of_ok hls (bind_of_ok hms rfl))
  | otherwise hopens hbody =>
    have hfront := writes_else hwithin hopens
    obtain ⟨ls, hls, hpieces⟩ := writes_forest hbody hrules.2 hwithin.block
    rw [level_shown rfl] at hls
    refine ⟨_, ?_, hfront.append (hpieces.append (writes_closing hwithin.block rfl))⟩
    rw [Branches.braced, hls]
    rfl

end

theorem isHeader_declaration (name : Text) :
    isHeader (CSharp.namespaceText name) = true ∧ isHeader (CSharp.classText name) = true :=
  ⟨rfl, rfl⟩

theorem solid_of_words (hplain : Plain text) (first last : Char) (hfirst : text.head? = some first)
    (hlast : text.getLast? = some last) (hhead : isWord first = true)
    (htail : isBlank last = false) : Solid text := by
  have hglue : isGlue first = false := by
    have hother : ∀ d, isWord d = false → first ≠ d := by
      rintro d hd rfl
      rw [hhead] at hd
      cases hd
    simp [isGlue, hother ')' rfl, hother ';' rfl, hother ',' rfl]
  exact hplain.solid first last hfirst hlast ⟨isBlank_eq_false_of_isWord hhead, hglue⟩ htail

/-- The rules allow plain code only. -/
theorem fits_rules : Fits Heading.text rules where
  call h := ⟨h.1.1, h.2.2⟩
  condition h := h
  header := by
    have hnamed : ∀ {start : Text} {first : Char} {name : Text}, start.all isPlain = true →
        start.head? = some first → isWord first = true → IsName name → Solid (start ++ name) := by
      intro start first name hstart hfirst hword hname
      obtain ⟨front, last, rfl⟩ := (eq_nil_or_concat' name).resolve_left hname.1
      refine solid_of_words ((Plain.fixed hstart).append (plain_of_isIdentifier hname.isIdentifier))
        first last ?_ ?_ hword ?_
      · rw [head?_append, hfirst]
        rfl
      · rw [← append_assoc]
        exact getLast?_concat
      · exact isBlank_eq_false_of_isWord (hname.2 last (by simp))
    intro around heading hrule
    cases heading with
    | namespaced name => exact ⟨hnamed rfl rfl rfl hrule.1, (isHeader_declaration name).1⟩
    | classBody name => exact ⟨hnamed rfl rfl rfl hrule.1, (isHeader_declaration name).2⟩
    | method type name parameters =>
      obtain ⟨-, htype, hname, hparameters⟩ := hrule
      have hlast : CSharp.methodText type name parameters =
          (type ++ ' ' :: (name ++ '(' :: CSharp.parametersText parameters)) ++ ")" := by
        simp [CSharp.methodText]
      obtain ⟨c, rest, rfl⟩ := exists_cons_of_ne_nil htype.1.1
      refine ⟨solid_of_words (plain_methodText htype hname.1 hparameters) c ')' rfl ?_
        (htype.1.2 c mem_cons_self) rfl, ?_⟩
      · rw [Heading.text, hlast]
        exact getLast?_concat
      · rw [Heading.text, hlast]
        exact isHeader_parenthesis _
    | loop condition => exact proper_conditionText "while" (by decide) rfl (by decide) hrule

/-- However a program is laid out, JavaScript gets its lines: the output depends on the tree alone,
not on where the braces and the line breaks around them stand. -/
theorem convert_layout_braced {program : Forest Heading} {source : Text}
    (hfollows : program.Follows rules none)
    (hlaid : LaidOut Heading.text program (lines source)) :
    ∃ out, program.braced javascript 0 = .ok out ∧
      (machine .csharpToJavaScript).convert source = .ok (unlines out) := by
  obtain ⟨pieces, hpieces, hlines⟩ := hlaid
  have houtside : Within none [] := ⟨nofun, nofun⟩
  obtain ⟨out, hout, hwrites⟩ := writes_forest hpieces hfollows houtside
  have hproper := proper_forest fits_rules hpieces hfollows
  exact ⟨out, hout, convert_of_writes (by decide) (fun _ => rfl) hlines hproper hwrites⟩

/-- A class with its brace on its line and a method with its brace on the next one. -/
theorem convert_layout_braced_nested :
    ∃ out, (Forest.cons (.block (.classBody "X") (.cons (.block (.method "int" "m" [("int", "a")])
        (.cons (.call "@f" "a") .nil)) .nil)) .nil).braced javascript 0 = .ok out ∧
      (machine .csharpToJavaScript).convert
      "public class X \x7b int m(int a)\n \x7b\n@f(a); \x7d\x7d" = .ok (unlines out) := by
  have hletter : ∀ t ∈ ["X".toList, "m".toList, "a".toList], IsName t ∧ CSharp.IsIdentifier t := by
    unfold CSharp.IsIdentifier
    decide
  have hcall : rules.call "@f" "a" := by
    have hname : CSharp.IsIdentifier "@f" ∧ "@f".toList.takeWhile isWord ≠ "return" := by
      unfold CSharp.IsIdentifier
      decide
    exact ⟨hname.1, hname.2, .fixed (by decide)⟩
  have htype : CSharp.IsType "int" ∧ CSharp.IsResult "int" := by
    unfold CSharp.IsType CSharp.IsResult
    decide
  have hfollows : (Forest.cons (.block (.classBody "X") (.cons (.block (.method "int" "m"
      [("int", "a")]) (.cons (.call "@f" "a") .nil)) .nil)) .nil).Follows rules none := by
    refine ⟨⟨hletter _ (by decide), trivial, ⟨⟨⟨_, rfl⟩, htype.2, hletter _ (by decide), ?_⟩,
      trivial, hcall, trivial⟩, trivial⟩, trivial⟩
    intro p hp
    obtain rfl := mem_singleton.mp hp
    exact ⟨htype.1, (hletter _ (by decide)).2⟩
  have hpieces : ForestPieces Heading.text (.cons (.block (.classBody "X") (.cons (.block (.method
      "int" "m" [("int", "a")]) (.cons (.call "@f" "a") .nil)) .nil)) .nil) _ :=
    .cons (.block .sameLine (.cons (.block .nextLine (.cons (.call _ _) .nil)) .nil)) .nil
  have hempty : Blank [] := forall_mem_nil _
  have hspace : Blank " ".toList := blank_space
  have hfirst : OnLine [.opened (CSharp.classText "X"),
      .header (CSharp.methodText "int" "m" [("int", "a")])] "public class X \x7b int m(int a)" :=
    .next hempty (.opened _ hspace) rfl (@OnLine.last _ " " _ [] hspace hempty (.header _))
  have hsecond : OnLine [.opening] " \x7b" := @OnLine.last _ " " _ [] hspace hempty .opening
  have hthird : OnLine [.statement (callText "@f" "a" ++ ";"), .closing, .closing]
      "@f(a); \x7d\x7d" :=
    .next hempty (.statement _) rfl (.next hspace .closing rfl
      (@OnLine.last _ [] _ [] hempty hempty .closing))
  have hlines : lines "public class X \x7b int m(int a)\n \x7b\n@f(a); \x7d\x7d" =
      ["public class X \x7b int m(int a)".toList, " \x7b".toList, "@f(a); \x7d\x7d".toList] := by
    decide
  have hlayout := OnLines.cons hfirst (.cons hsecond (.cons hthird .nil))
  rw [← hlines] at hlayout
  exact convert_layout_braced hfollows ⟨_, hpieces, hlayout⟩

/-- The forms of headers read word characters only. A header whose name has another mark is code of
no form, and so is a method whose type starts a statement elsewhere: a brace on the next line is
then no brace of the header. A call returns if its name starts with that word and a mark follows. -/
theorem convert_layout_marked :
    (∀ name ∈ ["public class Cafe\u0301", "namespace Cafe\u0301",
    "public class X \x7b\nint cafe\u0301(int a)",
        "public class X \x7b\nawait m(int a)"],
      (machine .csharpToJavaScript).convert (name.toList ++ " \x7b\n\x7d") ≠
        (machine .csharpToJavaScript).convert (name.toList ++ "\n\x7b\n\x7d")) ∧
      (machine .csharpToJavaScript).convert "return\u0301(a);" = .ok "return \u0301(a);" := by
  decide +kernel

end CodeConverter.Brace.ToBrace

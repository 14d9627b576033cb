import CodeConverter.Proofs.Expression.Ending
import CodeConverter.Proofs.Indent.Path

/-!
# Programs for JavaScript

Every layout of a program tree gives the same lines: each statement is written at the depth of its
block, by induction over the layout, and the end of the source closes what is still open.
-/

namespace CodeConverter.Indent

open Text Program Literal List Grammar.Python Parameter Grammar Expression.ToJavaScript

variable {w n : Nat} {ws : List Nat} {s : State} {t lead text : Text} {out : List Text}

theorem exists_expression (ht : Moderate t) (hline : '\n' ∉ t) :
    ∃ e, State.initial.expression .toJavaScript t = .ok e ∧ '\n' ∉ e := by
  have hmeets : Meets (fun _ => False) (fun _ => True)
      (Conversion.expression .toJavaScript State.initial.isKnown t) :=
    Conversion.meets_expression .toJavaScript State.initial.isKnown ht
  obtain ⟨e, he, -⟩ := hmeets.exists_ok
  refine ⟨e, he, fun hmem => ?_⟩
  have hadds := (Conversion.meets_expression_addsOnly .toJavaScript State.initial.isKnown t)
  rw [he] at hadds
  rcases hadds.of_ok _ hmem with hin | hnew
  · exact hline hin
  · cases hnew

section Lines

variable {name arguments condition : Text} {parameters : List Text}

/-- A call is written at the depth of its block. -/
theorem Settles.call (h : Settles w ws out n s) (hlead : Lead w lead)
    (hrule : rules.call name arguments) : ∃ text t, javascript.call name arguments = .ok text ∧
      visitLine .toJavaScript s (lead ++ callText name arguments) = .ok t ∧
      Stands w ws (out ++ [lineAt 2 ws.length text]) t := by
  obtain ⟨hname, hsign, hprint, hother, harguments⟩ := hrule
  have hmoderate := moderate_callText hname harguments
  obtain ⟨e, he, hline⟩ := exists_expression hmoderate (callText_line hname harguments.line)
  have hlast : endsIn (fun c => c = ')') (callText name arguments) = true := by
    rw [callText, ← cons_append, ← append_assoc]
    exact endsIn_concat _ _ ')'
  have hends : endsIn endsCall e = true := by
    have hcall := meets_ofPython_call hmoderate.null hlast
    rw [show ofPython (callText name arguments) = .ok e from he] at hcall
    exact hcall.of_ok
  obtain ⟨u, hat, -, hpending, hvisited⟩ := h.visits (isCode_callText hname harguments) hlead
  have hkind := classify_call hname harguments.line hsign hprint hother
  have hnot : ∀ set : Char → Bool, set ')' = false → set 'h' = false → endsIn set e = false := by
    intro set hclosing hletter
    obtain ⟨c, hc, hset⟩ := (Option.any_eq_true _ _).mp hends
    rw [endsIn, hc]
    simp only [endsCall, Bool.or_eq_true, decide_eq_true_eq] at hset
    rcases hset with rfl | rfl
    · exact hclosing
    · exact hletter
  have hvisit : visit .toJavaScript u (classify all (callText name arguments)) =
      .ok (u, .line (e ++ ";")) := by
    have hgeneric : u.expression .toJavaScript (callText name arguments) = .ok e := he
    have hcolon : endsIn (fun c => c = ':') e = false := hnot _ rfl rfl
    have hsemicolon : endsIn (fun c => c = ';' || c = '{') e = false := hnot _ rfl rfl
    simp only [visit, hkind, generic, classify_line, hgeneric]
    show (if (endsIn (fun c => c = ':') e && _) = true then _ else _) = _
    rw [hcolon]
    show Except.ok (u, Code.line (u.terminate e)) = _
    rw [State.terminate, hat.brackets, hsemicolon]
    rfl
  refine ⟨e ++ ";", u.emit .toJavaScript u.depth (.line (e ++ ";")), ?_, ?_, [], _,
    hat.emit ?_ ?_, hpending, forall_mem_nil _, (append_nil _).symm⟩
  · show (State.initial.expression .toJavaScript (callText name arguments) >>= fun e =>
      pure (e ++ ";")) = _
    rw [he]
    rfl
  · rw [hvisited, hvisit]
    exact congrArg Except.ok (written_line (by rw [hkind]; rfl) .toJavaScript u _)
  · simp
  · simp [hline]

theorem exists_condition (h : IsCondition condition) :
    ∃ text, State.initial.condition .toJavaScript condition = .ok text ∧ '\n' ∉ text := by
  obtain ⟨e, he, hline⟩ := exists_expression h.moderate h.line
  refine ⟨if startsWith e "(" && endsWith e ")" then e else "(" ++ e ++ ")", ?_, ?_⟩
  · rw [State.condition, he]
    show (if _ then _ else _) = _
    split <;> rfl
  · split
    · exact hline
    · simp [hline]

theorem opens_conditionHeader {l : Classified} (hgroup : l.group 1 = condition)
    (htext : State.initial.condition .toJavaScript condition = .ok text) (start : Text)
    (u : State) : Opens (start ++ text) u (conditionHeader .toJavaScript u l start) := by
  refine ⟨.block, [], u.decorators, rfl, ?_⟩
  rw [conditionHeader, hgroup, show u.condition .toJavaScript condition = .ok text from htext]
  rfl

/-- Bare parameters are written as they are. -/
theorem writeEach_names (h : ∀ p ∈ parameters, IsIdentifier p ∧ isReceiver p = false)
    (expression : Text → Except Fault Text) :
    writeEach (pythonToJavaScriptOne expression) (join ", " parameters) =
    .ok parameters := by
  have hsplit : splitArguments (join ", " parameters) = parameters :=
    splitArguments_entries fun p hp => (h p hp).1.isEntry
  have hparts : ∀ p ∈ parameters, Parts.of p = ⟨p, [], []⟩ := by
    intro p hp
    have hname := (h p hp).1
    simp only [Parts.of, cut_of_not_mem (hname.not_mem (d := '=') rfl),
      cut_of_not_mem (hname.not_mem (d := ':') rfl), hname.stripped]
  have hmap : (parameters.map Parts.of).filter (fun p => !isReceiver p.name) =
      parameters.map fun p => ⟨p, [], []⟩ := by
    rw [map_congr_left hparts]
    refine filter_eq_self.mpr fun part hpart => ?_
    obtain ⟨p, hp, rfl⟩ := mem_map.mp hpart
    rw [(h p hp).2]
    rfl
  have hone : ∀ p ∈ parameters, pythonToJavaScriptOne expression ⟨p, [], []⟩ = .ok p := by
    intro p hp
    have hstar : '*' ∉ p := (h p hp).1.not_mem rfl
    simp only [pythonToJavaScriptOne]
    split
    · exact absurd mem_cons_self hstar
    · exact absurd mem_cons_self hstar
    · rfl
  rw [writeEach, hsplit, hmap]
  clear hsplit hparts hmap h
  induction parameters with
  | nil => rfl
  | cons p parameters ih =>
    rw [map_cons, mapM_cons, hone p mem_cons_self, ih fun q hq => hone q (mem_cons_of_mem _ hq)]
    rfl

/-- A function header opens a block. -/
theorem opens_function (hname : IsName name)
    (hparameters : ∀ p ∈ parameters, IsIdentifier p ∧ isReceiver p = false)
    (u : State) (hat : At (w :: ws) out u) :
    Opens ("function " ++ name ++ "(" ++ join ", " parameters ++ ")") u
      (visit .toJavaScript u
      (classify all (functionText name parameters))) := by
  obtain ⟨hkind, hfirst, hsecond⟩ := classify_function hname fun p hp =>
    (hparameters p hp).1
  have hclass : ∀ v : State, v.scopes = u.scopes → v.inClassBody = .ok false := by
    intro v hv
    obtain ⟨scope, scopes, hscope⟩ :=
      exists_cons_of_length_pos (l := u.scopes) (by rw [hat.scopes]; simp)
    have hordinary := hat.ordinary scope (by rw [hscope]; exact mem_cons_self)
    rw [State.inClassBody, hv, hscope]
    show Except.ok (decide (scope = .classBody)) = _
    rw [decide_eq_false (of_decide_eq_true (Bool.and_eq_true_iff.mp hordinary).2)]
  refine ⟨.function, names (join ", " parameters), [], rfl, ?_⟩
  simp only [visit, hkind, functionHeader, untypedFunction, hfirst, hsecond, Indent.parameters]
  rw [writeEach_names hparameters]
  show (do let inClass ← State.inClassBody (takeStatic u).2; _) = _
  rw [hclass (takeStatic u).2 rfl]
  show Except.ok
      (header (takeStatic u).2 ("function " ++ name ++ ("(" ++ join ", " parameters ++ ")")) _ _) =
      _
  rw [← append_assoc, ← append_assoc]
  rfl

end Lines

/-- The header of a block is written at the depth around it. -/
theorem Settles.header (h : Settles w ws out n s) (hlead : Lead w lead) {around : Option Opening}
    {opening : Opening}
    (hrule : rules.header around opening) : ∃ text s', javascript.header opening = .ok (some text) ∧
      visitLine .toJavaScript s (lead ++ headerText opening) = .ok s' ∧
      Awaits w ws (out ++ [lineAt 2 ws.length (text ++ " \x7b")]) s' := by
  cases opening with
  | loop condition =>
    have hcondition : IsCondition condition := hrule
    obtain ⟨text, htext, hline⟩ := exists_condition hcondition
    obtain ⟨hkind, hgroup⟩ :=
      classify_while hcondition.nonempty hcondition.stripped hcondition.line
    obtain ⟨s', hs', hawaits⟩ := h.opens ("while " ++ text)
      (isCode_argumentLineText "while" ⟨by decide, by decide⟩ hcondition) hlead (by rw [hkind]; rfl)
      (by simp [hline]) fun u _ => by
        rw [visit, hkind]
        exact opens_conditionHeader hgroup htext "while " u
    refine ⟨_, s', ?_, hs', hawaits⟩
    show (State.initial.condition .toJavaScript condition >>= fun text =>
        pure (some ("while " ++ text))) = _
    rw [htext]
    rfl
  | function name parameters =>
    obtain ⟨hname, hparameters⟩ := hrule
    have hnames : ∀ p ∈ parameters, IsIdentifier p := fun p hp => (hparameters p hp).1
    obtain ⟨hkind, -, -⟩ := classify_function hname hnames
    have hline : '\n' ∉ "function " ++ name ++ "(" ++ join ", " parameters ++ ")" := by
      have hfirst := hname.not_mem (d := '\n') rfl
      have hlist : '\n' ∉ join ", " parameters := not_mem_join_names hnames
      simp only [mem_append, hfirst, hlist, not_or]
      decide
    obtain ⟨s', hs', hawaits⟩ :=
      h.opens _ (isCode_functionText hname hnames) hlead (by rw [hkind]; rfl) hline
      (opens_function hname hparameters)
    exact ⟨_, s', rfl, hs', hawaits⟩

/-- An `if` header is written at the depth around its block. -/
theorem Settles.ifHeader {condition : Text} (h : Settles w ws out n s) (hlead : Lead w lead)
    (hcondition : IsCondition condition) : ∃ text s', javascript.condition condition = .ok text ∧
      visitLine .toJavaScript s (lead ++ argumentLineText "if" condition) = .ok s' ∧
      Awaits w ws (out ++ [lineAt 2 ws.length ("if " ++ text ++ " \x7b")]) s' := by
  obtain ⟨text, htext, hline⟩ := exists_condition hcondition
  obtain ⟨hkind, hgroup⟩ :=
    classify_if hcondition.nonempty hcondition.stripped hcondition.line
    fun c hc => (of_isNeutral (hcondition.neutral c hc)).1
  obtain ⟨s', hs', hawaits⟩ := h.opens ("if " ++ text)
    (isCode_argumentLineText "if" ⟨by decide, by decide⟩ hcondition) hlead (by rw [hkind]; rfl)
    (by simp [hline]) fun u _ => by
      rw [visit, hkind]
      exact opens_conditionHeader hgroup htext "if " u
  exact ⟨text, s', htext, hs', hawaits⟩

section

variable (h : Settles w ws (out ++ [lineAt 2 ws.length "\x7d"]) (n + 1) s)

include h

/-- An `elif` header takes the place of the brace before it. -/
theorem Settles.elifHeader {condition : Text}
    (hlead : Lead w lead) (hcondition : IsCondition condition) :
    ∃ text s', javascript.condition condition = .ok text ∧
      visitLine .toJavaScript s (lead ++ argumentLineText "elif" condition) =
      .ok s' ∧
      Awaits w ws (out ++ [lineAt 2 ws.length ("\x7d else if " ++ text ++ " \x7b")]) s' := by
  obtain ⟨text, htext, hline⟩ := exists_condition hcondition
  obtain ⟨hkind, hgroup⟩ :=
    classify_elif hcondition.nonempty hcondition.stripped hcondition.line
  obtain ⟨s', hs', hawaits⟩ := h.continues ("\x7d else if " ++ text)
    (isCode_argumentLineText "elif" ⟨by decide, by decide⟩ hcondition) hlead (by rw [hkind]; rfl)
    (by simp [hline]) fun u _ => by
      rw [visit, hkind]
      exact opens_conditionHeader hgroup htext "\x7d else if " u
  exact ⟨text, s', htext, hs', hawaits⟩

/-- An `else` header takes the place of the brace before it. -/
theorem Settles.elseHeader (hlead : Lead w lead) :
    ∃ s', visitLine .toJavaScript s (lead ++ "else:") = .ok s' ∧
      Awaits w ws (out ++ [lineAt 2 ws.length "\x7d else \x7b"]) s' := by
  refine h.continues "\x7d else" (.of_neutral (by decide) (by decide) (by decide)) hlead rfl
    (by decide)
    fun u _ => ⟨.block, [], u.decorators, rfl, ?_⟩
  rw [visit, classify_else]
  rfl

end

section Run

mutual

/-- A statement is written in its block. -/
theorem TreeLaid.run {width closed : Nat} {outer : List Nat} {before ls : List Text} {s : State}
    {tree : Program.Tree Opening}
    {around : Option Opening} (h : TreeLaid width tree ls) (hfollows : tree.Follows rules around)
    (hs : Settles width outer before closed s) :
    ∃ r t, tree.braced javascript outer.length = .ok r ∧
    ls.foldlM (visitLine .toJavaScript) s = .ok t ∧ Stands width outer (before ++ r) t := by
  cases h with
  | call hlead =>
    obtain ⟨text, t, htext, ht, hstands⟩ := hs.call hlead hfollows
    refine ⟨_, t, ?_, ?_, hstands⟩
    · rw [Tree.braced, htext]
      rfl
    · rw [foldlM_cons, ht]
      rfl
  | block hlead hwidth hbody =>
    obtain ⟨hheader, hnonempty, hinside⟩ := hfollows
    obtain ⟨text, s', htext, hs', hawaits⟩ := hs.header hlead hheader
    obtain ⟨r, t, hr, ht, hstands⟩ := hbody.run hinside hnonempty (hawaits.settles hwidth)
    rw [length_cons] at hr
    refine ⟨lineAt 2 outer.length (text ++ " \x7b") :: r ++ [lineAt 2 outer.length "\x7d"], t,
      ?_, ?_, ?_⟩
    · rw [Tree.braced]
      exact bind_of_ok htext (bind_of_ok hr rfl)
    · rw [foldlM_cons, hs']
      exact ht
    · have houter := hstands.outer hwidth
      rw [append_assoc, append_assoc] at houter
      exact houter
  | branch hlead hwidth hbody hrest =>
    obtain ⟨hcondition, hnonempty, hinside, hothers⟩ := hfollows
    obtain ⟨text, s', htext, hs', hawaits⟩ := hs.ifHeader hlead hcondition
    obtain ⟨r, t, hr, ht, hstands⟩ := hbody.run hinside hnonempty (hawaits.settles hwidth)
    obtain ⟨others, u, hothersLines, hu, hdone⟩ := hrest.run hothers hwidth hstands
    rw [length_cons] at hr
    refine ⟨lineAt 2 outer.length ("if " ++ text ++ " \x7b") :: r ++ others, u, ?_, ?_, ?_⟩
    · rw [Tree.braced]
      exact bind_of_ok htext (bind_of_ok hr (bind_of_ok hothersLines rfl))
    · rw [foldlM_cons]
      exact bind_of_ok hs' (foldlM_of_ok ht hu)
    · rw [append_assoc, append_assoc] at hdone
      exact hdone

/-- The statements of a block are written one after another. -/
theorem ForestLaid.run {width closed : Nat} {outer : List Nat} {before ls : List Text} {s : State}
    {forest : Forest Opening} {around : Option Opening} (h : ForestLaid width forest ls)
    (hfollows : forest.Follows rules around) (hne : forest ≠ .nil)
    (hs : Settles width outer before closed s) :
    ∃ r t, forest.braced javascript outer.length = .ok r ∧
    ls.foldlM (visitLine .toJavaScript) s = .ok t ∧ Stands width outer (before ++ r) t := by
  cases h with
  | nil => exact absurd rfl hne
  | @cons _ first rest ls more hfirst hrest =>
    obtain ⟨r, t, hr, ht, hstands⟩ := hfirst.run hfollows.1 hs
    by_cases hmore : rest = .nil
    · subst hmore
      cases hrest
      refine ⟨r, t, ?_, ?_, hstands⟩
      · rw [Forest.braced, hr]
        exact congrArg Except.ok (append_nil r)
      · rw [append_nil]
        exact ht
    · obtain ⟨n, hsettles⟩ := hstands.settles
      obtain ⟨others, u, hothers, hu, hdone⟩ := hrest.run hfollows.2 hmore hsettles
      refine ⟨r ++ others, u, ?_, ?_, ?_⟩
      · rw [Forest.braced]
        exact bind_of_ok hr (bind_of_ok hothers rfl)
      · exact foldlM_of_ok ht hu
      · rw [append_assoc] at hdone
        exact hdone

/-- The other blocks of a conditional chain take up the brace of the block before them. -/
theorem BranchesLaid.run {width inner : Nat} {outer : List Nat} {before ls : List Text} {s : State}
    {rest : Branches Opening} (h : BranchesLaid width rest ls) (hfollows : rest.Follows rules)
    (hinner : width < inner) (hs : Stands inner (width :: outer) before s) :
    ∃ r t, rest.braced javascript outer.length = .ok r ∧
    ls.foldlM (visitLine .toJavaScript) s = .ok t ∧ Stands width outer (before ++ r) t := by
  cases h with
  | done => exact ⟨_, s, rfl, rfl, hs.outer hinner⟩
  | elseIf hlead hwidth hbody hrest =>
    obtain ⟨hcondition, hnonempty, hinside, hothers⟩ := hfollows
    obtain ⟨n, hsettles⟩ := hs.settles_outer hinner
    obtain ⟨text, s', htext, hs', hawaits⟩ := hsettles.elifHeader hlead hcondition
    obtain ⟨r, t, hr, ht, hstands⟩ := hbody.run hinside hnonempty (hawaits.settles hwidth)
    obtain ⟨others, u, hothersLines, hu, hdone⟩ := hrest.run hothers hwidth hstands
    rw [length_cons] at hr
    refine ⟨lineAt 2 outer.length ("\x7d else if " ++ text ++ " \x7b") :: r ++ others, u,
      ?_, ?_, ?_⟩
    · rw [Branches.braced]
      exact bind_of_ok htext (bind_of_ok hr (bind_of_ok hothersLines rfl))
    · rw [foldlM_cons]
      exact bind_of_ok hs' (foldlM_of_ok ht hu)
    · rw [append_assoc, append_assoc] at hdone
      exact hdone
  | otherwise hlead hwidth hbody =>
    obtain ⟨hnonempty, hinside⟩ := hfollows
    obtain ⟨n, hsettles⟩ := hs.settles_outer hinner
    obtain ⟨s', hs', hawaits⟩ := hsettles.elseHeader hlead
    obtain ⟨r, t, hr, ht, hstands⟩ := hbody.run hinside hnonempty (hawaits.settles hwidth)
    rw [length_cons] at hr
    refine ⟨lineAt 2 outer.length "\x7d else \x7b" :: r ++ [lineAt 2 outer.length "\x7d"], t,
      ?_, ?_, ?_⟩
    · rw [Branches.braced, hr]
      rfl
    · rw [foldlM_cons, hs']
      exact ht
    · have houter := hstands.outer hwidth
      rw [append_assoc, append_assoc] at houter
      exact houter

end

theorem Stands.finish (h : Stands w [] out s) : ∃ t, finish .toJavaScript s = .ok t ∧
    t.output.toList = out := by
  obtain ⟨inner, mid, hat, hpending, hinner, rfl⟩ := h
  obtain ⟨t, ht, hdone⟩ := hat.closeAll hinner
  refine ⟨t, ?_, hdone.output⟩
  have hnone : s.pendingScope.isSome = false := by rw [hpending]; rfl
  simp only [finish, hnone, Bool.false_eq_true, if_false, pure_bind, ht]
  rfl

end Run

/-- However a program is laid out, JavaScript gets its lines: the output depends on the tree alone,
not on the widths of the blocks and on how their blanks are spelled. -/
theorem convert_of_laid {program : Forest Opening} {source : Text}
    (hfollows : program.Follows rules none) (hlaid : ForestLaid 0 program (lines source)) :
    ∃ out, program.braced javascript 0 = .ok out ∧
    (machine .toJavaScript).convert source = .ok (unlines out) := by
  have hne : program ≠ .nil := by
    rintro rfl
    obtain ⟨first, rest, hlines, -⟩ := splitOn_eq_cons '\n' source
    rw [lines, hlines] at hlaid
    cases hlaid
  have hinitial : At ([] ++ [0]) [] State.initial := ⟨rfl, rfl, rfl, by decide, rfl, rfl, rfl⟩
  have hsettles : Settles 0 [] [] 0 State.initial := hinitial.settles rfl nofun
  obtain ⟨out, s, hout, hrun, hstands⟩ := hlaid.run hfollows hne hsettles
  obtain ⟨t, ht, houtput⟩ := hstands.finish
  refine ⟨out, hout, ?_⟩
  have hvisits : (machine .toJavaScript).run (lines source) = .ok s := hrun
  rw [LineMachine.convert, hvisits]
  show (finish .toJavaScript s >>= fun last => pure (unlines last.output.toList)) = _
  rw [ht]
  show Except.ok (unlines t.output.toList) = _
  rw [houtput]
  rfl

/-- A chain whose blocks have different widths, one of them spelled with tabs. -/
theorem convert_of_laid_tabs :
    ∃ out, (Forest.cons (.branch "a" (.cons (.call "f" "x") .nil) (.otherwise
        (.cons (.block (.loop "b") (.cons (.call "g" "y") .nil)) .nil))) .nil).braced javascript
        0 = .ok out ∧
      (machine .toJavaScript).convert "if a:\n\tf(x)\nelse:\n  while b:\n \t  g(y)" =
      .ok (unlines out) := by
  have hfollows : (Forest.cons (.branch "a" (.cons (.call "f" "x") .nil) (.otherwise
      (.cons (.block (.loop "b") (.cons (.call "g" "y") .nil)) .nil))) .nil).Follows rules
      none := by
    have hcall : ∀ name ∈ ["f", "g"], ∀ argument ∈ ["x", "y"], rules.call name argument := by
      intro name hname argument hargument
      simp only [mem_cons, not_mem_nil, or_false] at hname hargument
      rcases hname with rfl | rfl <;> rcases hargument with rfl | rfl <;>
        exact ⟨by decide, by decide, by decide, by decide, ⟨by decide, Nat.zero_le _⟩⟩
    have ha : IsCondition "a" := ⟨⟨by decide, Nat.zero_le _⟩, by decide, by decide⟩
    have hb : IsCondition "b" := ⟨⟨by decide, Nat.zero_le _⟩, by decide, by decide⟩
    exact ⟨⟨ha, by rintro ⟨⟩, ⟨hcall _ (by decide) _ (by decide), trivial⟩, by rintro ⟨⟩,
      ⟨⟨hb, by rintro ⟨⟩, ⟨hcall _ (by decide) _ (by decide), trivial⟩⟩, trivial⟩⟩, trivial⟩
  have h0 : Lead 0 [] := ⟨forall_mem_nil _, rfl⟩
  have h2 : Lead 2 "  " := ⟨by decide, rfl⟩
  have h4 : Lead 4 "\t" := ⟨by decide, rfl⟩
  have h6 : Lead 6 " \t  " := ⟨by decide, rfl⟩
  have hbody : ForestLaid 4 (.cons (.call "f" "x") .nil) _ := .cons (.call h4) .nil
  have hloop : ForestLaid 2 (.cons (.block (.loop "b") (.cons (.call "g" "y") .nil)) .nil) _ :=
    .cons (.block h2 (by decide) (.cons (.call h6) .nil)) .nil
  exact convert_of_laid hfollows
    (.cons (.branch h0 (by decide) hbody (.otherwise h0 (by decide) hloop)) .nil)

/-- The form of a function reads a name of word characters only, so with an accent that combines
with its letter the header is code of no form. A call returns if its name starts with that word and
a mark follows. -/
theorem convert_of_marked :
    (machine .toJavaScript).convert "def cafe\u0301(x):\n  f(x)" =
    .ok "def cafe\u0301(x) \x7b\n  f(x);\n\x7d" ∧
      (machine .toJavaScript).convert "return\u0301(x)" = .ok "return \u0301(x);" ∧
      (machine .toJavaScript).convert "raise\u0301(x)" = .ok "throw new \u0301(x);" := by
  decide +kernel

end CodeConverter.Indent

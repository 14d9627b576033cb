import CodeConverter.Proofs.Brace.Program.Scope
import CodeConverter.Proofs.Expression.Ending
import CodeConverter.Proofs.Line.JavaScript

/-!
# Programs for Python

Every layout of a program tree gives the same lines: the braces of the source decide the depth of
each statement, wherever they stand.
-/

namespace CodeConverter.Brace.ToIndent

open Text Program Block Grammar Literal JavaScript Conversion Expression.ToPython
open List hiding dropPrefix?

/-- The header of a block. -/
def headerText : Opening → Text
  | .loop condition => conditionText "while" condition
  | .function name parameters => functionText name parameters

/-- The programs that are laid out: plain code. The name of a call is any identifier that does not
start with the word that returns, the name of a function has word characters only. -/
def rules : Rules Opening where
  call name arguments := IsIdentifier name ∧ name.takeWhile isWord ≠ "return" ∧ Plain arguments
  condition := Plain
  header _ := fun
    | .loop condition => Plain condition
    | .function name parameters => IsName name ∧ ∀ p ∈ parameters, IsIdentifier p
  body _ := True

/-- How Python writes a program. -/
def python : Target Opening where
  size := 4
  call name arguments := javascriptToPython.expression (callText name arguments)
  condition := javascriptToPython.expression
  header := fun
    | .loop condition =>
        do return some ("while " ++ (← javascriptToPython.expression condition))
    | .function name parameters =>
        return some ("def " ++ name ++ "(" ++ join ", " parameters ++ ")")

/-- The scopes around a statement: one for every block. -/
def blocks (n : Nat) : List Scope :=
  replicate n .block

variable {n : Nat} {out : List Text} {s : State} {text : Text}

theorem level_blocks (n : Nat) : level .javascriptToPython (blocks n) = n := by
  have hall : (blocks n).filter (fun scope => !javascriptToPython.hides scope) =
      blocks n :=
    filter_replicate_of_pos rfl
  rw [level, hall, blocks, length_replicate]
  exact Nat.zero_add n

theorem blocks_not_skipped (n : Nat) : (blocks n).contains .skipped = false := by
  simp [blocks]

theorem inLiteral_blocks {awaiting : Bool} (h : At (blocks n) awaiting out s) :
    s.inLiteral = false := by
  rw [State.inLiteral, h.scopes]
  cases n <;> rfl

theorem absorbs_brace : Absorbs .javascriptToPython where
  unprepared := by decide
  kind := rfl
  visit := by
    intro s hs
    show Except.ok (openBrace s) = _
    rw [openBrace, hs]
    rfl

theorem writes_block {opening : Text} {front : List Piece} (hopens : Opens opening front)
    (hplain : Plain opening) (hne : opening ≠ []) (hline : '\n' ∉ text)
    (hvisit : ∀ tail, IsTail tail → ∀ s,
    visit .javascriptToPython s (classify withLambdas (opening ++ tail)) =
      .ok (header s (opening ++ tail) text .block)) :
    Writes .javascriptToPython (At (blocks n) false) (At (blocks (n + 1)) false) front
    [lineAt 4 n (text ++ ":")] := by
  have hdepth :
      min (level .javascriptToPython (blocks n)) (level .javascriptToPython (blocks (n + 1))) =
      n := by
    rw [level_blocks, level_blocks]
    omega
  refine writes_header (.line (text ++ ":")) hopens hplain hne absorbs_brace
    (blocks_not_skipped (n + 1))
    (fun tail htail out s hs => ?_) hdepth (emit_line (by simp) (by simp [hline]))
  exact ⟨hs.scopes, hs.awaiting, _, hvisit tail htail s, hs.openBlock (by decide) _⟩

theorem writes_closing :
    Writes .javascriptToPython (At (blocks (n + 1)) false) (At (blocks n) false) [.closing] [] := by
  refine writes_piece .nothing absorbs_brace (by decide) (blocks_not_skipped (n + 1))
    (fun out s hs => ?_) rfl
    fun output => (append_nil _).symm
  have hclose :
      s.closeBlock .javascriptToPython = .ok (some .block, { s with scopes := blocks n }) := by
    rw [State.closeBlock, hs.scopes]
    rfl
  refine ⟨hs.scopes, hs.awaiting, { s with scopes := blocks n }, ?_, rfl, hs.awaiting,
    hs.output, hs.names⟩
  show closeBrace .javascriptToPython s "\x7d" = _
  rw [closeBrace, hclose, inLiteral_blocks hs]
  rfl

theorem exists_expression {t : Text} (h : Plain t) :
    ∃ e, javascriptToPython.expression t = .ok e ∧ '\n' ∉ e := by
  have hmeets : Meets (fun _ => False) (fun _ => True) (javascriptToPython.expression t) :=
    meets_expression .javascriptToPython h.moderate
  obtain ⟨e, he, -⟩ := hmeets.exists_ok
  refine ⟨e, he, fun hmem => ?_⟩
  have hadds := meets_ofJavaScript_addsOnly t
  rw [show ofJavaScript t = .ok e from he] at hadds
  rcases hadds.of_ok _ hmem with hin | hnew
  · exact h.not_mem rfl hin
  · cases hnew

/-- A call is respelled without its semicolon. -/
theorem generic_statement {c : Conversion} {t : Text} (hs : s.inLiteral = false)
    (hlast : t.getLast? = some ')')
    (hline : '\n' ∉ t) : generic c s (t ++ ";") = c.expression t >>= fun e =>
    pure (s, .line e) := by
  have hliteral : opensLiteral (t ++ [';']) = false := by
    simp only [opensLiteral, endsIn_concat]
    rfl
  have hbrace : endsIn (fun c => c = '{') (t ++ [';']) = false := endsIn_concat _ _ _
  have hstatement : stripEnd (withoutSemicolons (t ++ ";")) = t := by
    show stripEnd (withoutSemicolons (t ++ [';'])) = t
    rw [withoutSemicolons, dropEndWhile_concat t rfl, dropEndWhile_of_last hlast rfl]
    exact dropEndWhile_of_last hlast rfl
  have hincrement : incrementAssignment? t = none := by
    rw [incrementAssignment?, Pattern.matchStart_eq_none_of_endsWith rfl hline hlast rfl]
    rfl
  simp only [generic, hs]
  show (if opensLiteral (t ++ [';']) = true then _ else _) = _
  rw [hliteral]
  show (if endsIn (fun c => c = '{') (t ++ [';']) = true then _ else _) = _
  rw [hbrace]
  simp only [Bool.false_eq_true, if_false, hstatement, hincrement]

section Statements

variable {name arguments condition : Text} {parameters : List Text} {front : List Piece}

/-- A call is written without its semicolon. -/
theorem writes_call (hrule : rules.call name arguments) : ∃ e, python.call name arguments = .ok e ∧
      Writes .javascriptToPython (At (blocks n) false) (At (blocks n) false)
      [.statement (callText name arguments ++ ";")] [lineAt 4 n e] := by
  obtain ⟨hname, hother, harguments⟩ := hrule
  have hplain := plain_callText hname harguments
  obtain ⟨e, he, hline⟩ := exists_expression hplain
  have hlast : (callText name arguments).getLast? = some ')' := by
    rw [callText, ← cons_append, ← append_assoc]
    exact getLast?_concat
  have hends : endsIn (fun c => c = ')') e = true := by
    have hcall := meets_ofJavaScript_call hplain.moderate.null (t := callText name arguments) (by
      rw [endsIn, hlast]
      rfl)
    rw [show ofJavaScript (callText name arguments) = .ok e from he] at hcall
    exact hcall.of_ok
  have hkind := classify_call hname (harguments.not_mem rfl) hother
  have hdepth :
      min (level .javascriptToPython (blocks n)) (level .javascriptToPython (blocks n)) = n := by
    rw [level_blocks, Nat.min_self]
  refine ⟨e, he, writes_piece (.line e) absorbs_brace (by simp [Piece.text]) (blocks_not_skipped n)
    (fun out s hs => ?_) hdepth (emit_line (ne_nil_of_endsIn hends) hline)⟩
  refine ⟨hs.scopes, hs.awaiting, s, ?_, hs⟩
  show visit .javascriptToPython s
      (classify withLambdas (callText name arguments ++ ";")) = .ok (s, .line e)
  simp only [visit, hkind, classify_line]
  rw [generic_statement (inLiteral_blocks hs) hlast (hplain.not_mem rfl), he]
  rfl

/-- A header with a condition is written with a colon. -/
theorem writes_condition (start : String) (target : Text) (kind : LineKind)
    (hstart : start.toList.all isPlain = true)
    (htarget : '\n' ∉ target) (hcondition : Plain condition)
    (hopens : Opens (conditionText start condition) front) (hclass : ∀ tail, IsTail tail →
      (classify withLambdas (conditionText start condition ++ tail)).kind = kind ∧
      (classify withLambdas (conditionText start condition ++ tail)).group 1 = condition)
    (hvisit : ∀ s l, l.kind = kind →
    visit .javascriptToPython s l = conditionHeader .javascriptToPython s l target) :
    ∃ e, python.condition condition = .ok e ∧
      Writes .javascriptToPython (At (blocks n) false) (At (blocks (n + 1)) false) front
      [lineAt 4 n (target ++ e ++ ":")] := by
  obtain ⟨e, he, hline⟩ := exists_expression hcondition
  refine ⟨e, he,
    writes_block hopens (plain_conditionText hstart hcondition) ?_ ?_ fun tail htail s => ?_⟩
  · simp [conditionText]
  · simp [htarget, hline]
  · obtain ⟨hkind, hgroup⟩ := hclass tail htail
    rw [hvisit s _ hkind, conditionHeader, hgroup, he, classify_line]
    rfl

/-- Parameters that are names are kept. -/
theorem join_javascriptParameters (h : ∀ p ∈ parameters, IsIdentifier p) :
    join ", " (javascriptParameters (join ", " parameters)) = join ", " parameters := by
  have hsplit : splitArguments (join ", " parameters) = parameters :=
    splitArguments_entries fun p hp => (h p hp).isEntry
  have hsame : Parameter.javascriptToPython (join ", " parameters) = join ", " parameters := by
    rw [Parameter.javascriptToPython, hsplit]
    refine congrArg (join ", ") ((map_congr_left fun p hp => ?_).trans (map_id parameters))
    have hdot : '.' ∉ p := (h p hp).not_mem rfl
    obtain ⟨c, rest, rfl⟩ := exists_cons_of_ne_nil (h p hp).1
    have hother : '.' ≠ c := fun heq => hdot (heq ▸ mem_cons_self)
    simp [Parameter.restMark, dropPrefix?, hother]
  rw [javascriptParameters, hsame]
  split
  · rename_i hnil
    rw [hnil]
    rfl
  · exact join_singleton _ _

/-- The header of a loop or a function. -/
theorem writes_opening {around : Option Opening} {opening : Opening}
    (hrule : rules.header around opening)
    (hopens : Opens (headerText opening) front) : ∃ text, python.header opening = .ok (some text) ∧
      Writes .javascriptToPython (At (blocks n) false) (At (blocks (n + 1)) false) front
      [lineAt 4 n (text ++ ":")] := by
  cases opening with
  | loop condition =>
    have hline : '\n' ∉ condition := Plain.not_mem hrule rfl
    obtain ⟨e, he, hwrites⟩ :=
      writes_condition "while" "while " .whileHeader (by decide) (by decide) hrule hopens
      (fun tail htail => classify_while hline htail)
      (fun s l h => by simp only [visit, h])
    refine ⟨"while " ++ e, ?_, hwrites⟩
    show (javascriptToPython.expression condition >>= fun e =>
        pure (some ("while " ++ e))) = _
    rw [show javascriptToPython.expression condition = .ok e from he]
    rfl
  | function name parameters =>
    obtain ⟨hname, hparameters⟩ := hrule
    have hplainName := plain_of_isIdentifier hname.isIdentifier
    have hplainList : Plain (join ", " parameters) :=
      plain_join (.fixed rfl) fun p hp => plain_of_isIdentifier (hparameters p hp)
    refine ⟨_, rfl, writes_block hopens ?_ ?_ ?_ fun tail htail s => ?_⟩
    · exact (Plain.fixed rfl).append
        (hplainName.append (.cons rfl (hplainList.append (.fixed rfl))))
    · exact append_ne_nil_of_left_ne_nil (by decide) _
    · exact ((((Plain.fixed rfl).append hplainName).append (.fixed rfl)).append hplainList |>.append
        (.fixed rfl)).not_mem rfl
    · obtain ⟨hkind, hfirst, hsecond⟩ := classify_function hname hparameters htail
      simp only [headerText, visit, hkind, functionHeader, definition, hfirst, hsecond,
        classify_line]
      rw [join_javascriptParameters hparameters]
      rfl

end Statements

mutual

/-- A tree is written at the depth where it stands. -/
theorem writes_tree {around : Option Opening} {tree : Program.Tree Opening} {pieces : List Piece}
    (h : TreePieces headerText tree pieces) (hrules : tree.Follows rules around) (n : Nat) :
    ∃ ls, tree.indented python n = .ok ls ∧
    Writes .javascriptToPython (At (blocks n) false) (At (blocks n) false) pieces ls := by
  cases h with
  | call name arguments =>
    obtain ⟨e, he, hwrites⟩ := writes_call hrules
    refine ⟨[lineAt 4 n e], ?_, hwrites⟩
    rw [Tree.indented, he]
    rfl
  | block hopens hbody =>
    obtain ⟨hheader, -, hinner⟩ := hrules
    obtain ⟨text, htext, hfront⟩ := writes_opening hheader hopens
    obtain ⟨ls, hls, hpieces⟩ := writes_forest hbody hinner (n + 1)
    refine ⟨lineAt 4 n (text ++ ":") :: ls, ?_, ?_⟩
    · rw [Tree.indented]
      exact bind_of_ok htext (bind_of_ok hls rfl)
    · have hall := hfront.append (hpieces.append writes_closing)
      rwa [append_nil] at hall
  | branch hopens hbody hrest =>
    obtain ⟨hcondition, -, hinner, hothers⟩ := hrules
    have hline : '\n' ∉ _ := Plain.not_mem hcondition rfl
    obtain ⟨e, he, hfront⟩ :=
      writes_condition "if" "if " .ifHeader (by decide) (by decide) hcondition hopens
      (fun tail htail => classify_if hline htail) (fun s l h => by simp only [visit, h])
    obtain ⟨ls, hls, hpieces⟩ := writes_forest hbody hinner (n + 1)
    obtain ⟨ms, hms, hmore⟩ := writes_branches hrest hothers n
    refine ⟨lineAt 4 n ("if " ++ e ++ ":") :: ls ++ ms, ?_, hfront.append (hpieces.append hmore)⟩
    rw [Tree.indented]
    exact bind_of_ok he (bind_of_ok hls (bind_of_ok hms rfl))

theorem writes_forest {around : Option Opening} {forest : Forest Opening} {pieces : List Piece}
    (h : ForestPieces headerText forest pieces) (hrules : forest.Follows rules around) (n : Nat) :
    ∃ ls, forest.indented python n = .ok ls ∧
    Writes .javascriptToPython (At (blocks n) false) (At (blocks n) false) pieces ls := by
  cases h with
  | nil => exact ⟨[], rfl, .nil⟩
  | cons hfirst hrest =>
    obtain ⟨ls, hls, hpieces⟩ := writes_tree hfirst hrules.1 n
    obtain ⟨ms, hms, hmore⟩ := writes_forest hrest hrules.2 n
    refine ⟨ls ++ ms, ?_, hpieces.append hmore⟩
    rw [Forest.indented]
    exact bind_of_ok hls (bind_of_ok hms rfl)

/-- The other blocks of a conditional chain, from the closing brace of the block before them on. -/
theorem writes_branches {branches : Branches Opening} {pieces : List Piece}
    (h : BranchesPieces headerText branches pieces) (hrules : branches.Follows rules) (n : Nat) :
    ∃ ls, branches.indented python n = .ok ls ∧
      Writes .javascriptToPython (At (blocks (n + 1)) false) (At (blocks n) false)
      (.closing :: pieces) ls := by
  cases h with
  | done => exact ⟨[], rfl, writes_closing⟩
  | elseIf hopens hbody hrest =>
    obtain ⟨hcondition, -, hinner, hothers⟩ := hrules
    have hline : '\n' ∉ _ := Plain.not_mem hcondition rfl
    obtain ⟨e, he, hfront⟩ :=
      writes_condition "else if" "elif " .elseIfHeader (by decide) (by decide) hcondition hopens
      (fun tail htail => classify_elseIf hline htail)
      (fun s l h => by simp only [visit, h])
    obtain ⟨ls, hls, hpieces⟩ := writes_forest hbody hinner (n + 1)
    obtain ⟨ms, hms, hmore⟩ := writes_branches hrest hothers n
    refine ⟨lineAt 4 n ("elif " ++ e ++ ":") :: ls ++ ms, ?_, ?_⟩
    · rw [Branches.indented]
      exact bind_of_ok he (bind_of_ok hls (bind_of_ok hms rfl))
    · exact writes_closing.append (hfront.append (hpieces.append hmore))
  | @otherwise _ front _ hopens hbody =>
    have hfront : Writes .javascriptToPython (At (blocks n) false) (At (blocks (n + 1)) false) front
        [lineAt 4 n ("else" ++ ":")] := by
      refine writes_block hopens (.fixed (by decide)) (by decide) (by decide) fun tail htail s => ?_
      simp only [visit, classify_else htail, classify_line]
      rfl
    obtain ⟨ls, hls, hpieces⟩ := writes_forest hbody hrules.2 (n + 1)
    refine ⟨lineAt 4 n "else:" :: ls, ?_, ?_⟩
    · rw [Branches.indented, hls]
      rfl
    · have hall := writes_closing.append (hfront.append (hpieces.append writes_closing))
      rwa [append_nil] at hall

end

/-- The rules allow plain code only. -/
theorem fits_rules : Fits headerText rules where
  call h := ⟨h.1, h.2.2⟩
  condition h := h
  header := by
    intro around opening hrule
    cases opening with
    | loop condition => exact proper_conditionText "while" (by decide) rfl (by decide) hrule
    | function name parameters =>
      obtain ⟨hname, hparameters⟩ := hrule
      have hlist : Plain (join ", " parameters) :=
        plain_join (.fixed rfl) fun p hp => plain_of_isIdentifier (hparameters p hp)
      have hplain : Plain (functionText name parameters) :=
        (Plain.fixed rfl).append
          ((plain_of_isIdentifier hname.isIdentifier).append
          (.cons rfl (hlist.append (.fixed rfl))))
      have hlast : functionText name parameters =
          ("function " ++ (name ++ '(' :: join ", " parameters)) ++ ")" := by
        unfold functionText
        rw [append_assoc, append_assoc, cons_append]
      refine ⟨hplain.solid 'f' ')' rfl ?_ (by decide) (by decide), ?_⟩
      · rw [hlast]
        exact getLast?_concat
      · show isHeader (functionText name parameters) = true
        rw [hlast]
        exact isHeader_parenthesis _

/-- However a program is laid out, Python gets its lines: the output depends on the tree alone, not
on where the braces and the line breaks around them stand. -/
theorem convert_layout_indented {program : Forest Opening} {source : Text}
    (hfollows : program.Follows rules none)
    (hlaid : LaidOut headerText program (lines source)) :
    ∃ out, program.indented python 0 = .ok out ∧
      (machine .javascriptToPython).convert source = .ok (unlines out) := by
  obtain ⟨pieces, hpieces, hlines⟩ := hlaid
  obtain ⟨out, hout, hwrites⟩ := writes_forest hpieces hfollows 0
  have hproper := proper_forest fits_rules hpieces hfollows
  exact ⟨out, hout, convert_of_writes (by decide) (fun _ => rfl) hlines hproper hwrites⟩

/-- A chain laid out in two ways at once: a block on the line of its header, and a brace on the next
line. -/
theorem convert_layout_indented_mixed :
    ∃ out, (Forest.cons (.branch "a" (.cons (.call "$f" "x") .nil)
        (.otherwise (.cons (.call "g" "y") .nil))) .nil).indented python 0 = .ok out ∧
      (machine .javascriptToPython).convert "if (a) \x7b $f(x); \x7d else\n\x7b\n g(y); \x7d" =
        .ok (unlines out) := by
  have hfollows : (Forest.cons (.branch "a" (.cons (.call "$f" "x") .nil)
      (.otherwise (.cons (.call "g" "y") .nil))) .nil).Follows rules none :=
    ⟨⟨.fixed (by decide), trivial, ⟨⟨by decide, by decide, .fixed (by decide)⟩, trivial⟩, trivial,
      ⟨⟨by decide, by decide, .fixed (by decide)⟩, trivial⟩⟩, trivial⟩
  have hpieces : ForestPieces headerText (.cons (.branch "a" (.cons (.call "$f" "x") .nil)
      (.otherwise (.cons (.call "g" "y") .nil))) .nil) _ :=
    .cons (.branch .sameLine (.cons (.call _ _) .nil)
      (.otherwise .nextLine (.cons (.call _ _) .nil))) .nil
  have hempty : Blank [] := forall_mem_nil _
  have hspace : Blank " ".toList := blank_space
  have hfirst : OnLine [.opened (conditionText "if" "a"), .statement (callText "$f" "x" ++ ";"),
      .closing, .header "else"] "if (a) { $f(x); } else" :=
    .next hempty (.opened _ hspace) rfl (.next hspace (.statement _) rfl (.next hspace .closing rfl
      (@OnLine.last _ " " _ [] hspace hempty (.header _))))
  have hsecond : OnLine [.opening] "\x7b" := @OnLine.last _ [] _ [] hempty hempty .opening
  have hthird : OnLine [.statement (callText "g" "y" ++ ";"), .closing] " g(y); \x7d" :=
    .next hspace (.statement _) rfl (@OnLine.last _ " " _ [] hspace hempty .closing)
  have hlines : lines "if (a) \x7b $f(x); \x7d else\n\x7b\n g(y); \x7d" =
      ["if (a) { $f(x); } else".toList, "\x7b".toList, " g(y); \x7d".toList] := by
    decide
  have hlayout := OnLines.cons hfirst (.cons hsecond (.cons hthird .nil))
  rw [← hlines] at hlayout
  exact convert_layout_indented hfollows ⟨_, hpieces, hlayout⟩

/-- The form of a function reads a name of word characters only. With a dollar sign in it, the
header is code of no form, and a brace on the next line is no brace of the header. A call returns if
its name starts with that word and a dollar sign follows. -/
theorem convert_layout_dollar :
    (machine .javascriptToPython).convert "function $f(x) \x7b\n  g(x);\n\x7d" =
    .ok "function $f(x):\n    g(x)" ∧
      (machine .javascriptToPython).convert "function $f(x)\n\x7b\n  g(x);\n\x7d" =
      .ok "function $f(x)\n    g(x)" ∧
      (machine .javascriptToPython).convert "return$(x);" = .ok "return $(x)" := by
  decide +kernel

end CodeConverter.Brace.ToIndent

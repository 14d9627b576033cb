import CodeConverter.Proofs.Brace.Outline
import CodeConverter.Proofs.Expression.Braces

/-!
# Moves of lines with at most one brace

A line without braces opens no scope or one whose brace is still to come. A line that ends in an
opening brace puts a scope on the stack, and one that starts with a closing brace takes one off.
-/

namespace CodeConverter.Brace

open Text Pattern List ToBrace Grammar Expression.ToJava Conversion

/-- The conversions from one language to another. -/
def Conversion.hasLanguages : Conversion → Bool
  | .plain | .toIndentation | .toBraces => false
  | _ => true

/-- The move opens no scope, or one that a header announces. -/
def Move.IsPlain : Move → Prop
  | .stay | .opens _ | .enters _ _ => True
  | _ => False

/-- The move opens a scope. -/
def Move.IsOpening : Move → Prop
  | .literal | .opens _ | .enters _ _ => True
  | _ => False

variable {c : Conversion} {s : State} {u : Text}

variable {p : Pattern} {d : Char} {m : Match} {kind : LineKind} {value lead gap t : Text} {k : Nat}
  {set : Char → Bool} {form : LineForm}

theorem beginsWith_of_matchStart {rest : Text} (hm : p.matchStart (d :: rest) = some m)
    (hnull : p.nullable = false) : p.beginsWith d = true := by
  have hreads := (of_matchStart hm).1.reads
  have hparts : d :: rest = m.whole ++ m.last.ahead := by
    have hahead : m.first.ahead = m.whole ++ m.last.ahead := hreads.ahead_eq
    rwa [(of_matchStart hm).2] at hahead
  cases hwhole : m.whole with
  | nil => exact absurd hwhole (hreads.ne_nil hnull)
  | cons e piece =>
    rw [hwhole, cons_append, cons.injEq] at hparts
    rw [hwhole] at hreads
    exact hreads.beginsWith (by rw [head?_cons, ← hparts.1])

theorem matchesStart_closeBrace (h : isClosingLine u = true) :
    closeBraceForm.pattern.matchesStart u = true := by
  obtain ⟨glue, rfl, hglue, -⟩ := isClosingLine_parts h
  have hmarks : ∀ d ∈ glue, (isBlank d || among ");," d) = true :=
    Block.forall_glue (by decide) hglue
  exact isSome_matchAt_of_reads (.seq (.seq (.seq (.atStart _ rfl) (.literal _ ['}'] glue rfl))
    (.chars _ _ _ glue [] (append_nil _).symm hmarks)) (.atEnd _ rfl))

/-- A closing line is classified as one. -/
theorem kind_of_isClosingLine (hc : c.hasLanguages = true) (h : isClosingLine u = true) :
    (classify c.grammar u).kind = .closeBrace := by
  have hmatches := matchesStart_closeBrace h
  obtain ⟨glue, rfl, -, -⟩ := isClosingLine_parts h
  have hgrammar : c.grammar.all (fun form => form.kind = .closeBrace ||
      (!form.pattern.nullable && !form.pattern.beginsWith '}')) = true := by
    cases c
    case plain | toIndentation | toBraces => cases hc
    all_goals decide
  have hform : closeBraceForm ∈ c.grammar := by
    cases c
    case plain | toIndentation | toBraces => cases hc
    case javaToPython | javaToJavaScript =>
      simp [grammar, Java.plain, Java.withMain, Java.memberForms,
        closingForms]
    case phpToPython => simp [grammar, Php.all, closingForms]
    case csharpToJavaScript => simp [grammar, CSharp.all, closingForms]
    all_goals simp [grammar, JavaScript.withLambdas,
      JavaScript.withKeyLoops, JavaScript.withoutLambdas, closingForms]
  rcases classify_cases c.grammar ('}' :: glue) with ⟨form, hmem, m, hm, heq⟩ | ⟨hnone, -⟩
  · rw [heq]
    have hallowed := all_eq_true.mp hgrammar form hmem
    rw [Bool.or_eq_true, decide_eq_true_eq] at hallowed
    refine hallowed.resolve_right fun hother => ?_
    rw [Bool.and_eq_true, Bool.not_eq_true', Bool.not_eq_true'] at hother
    rw [beginsWith_of_matchStart hm hother.1] at hother
    cases hother.2
  · rw [matchesStart, hnone _ hform] at hmatches
    cases hmatches

theorem found_of_kind {grammar forms : List LineForm}
    (hforms : grammar.filter (fun form => form.kind = kind) = forms)
    (hkind : (classify grammar u).kind = kind) (hne : kind ≠ .generic) :
    ∃ form ∈ forms, ∃ m, form.pattern.matchStart u = some m ∧
    (classify grammar u).found = some m := by
  obtain ⟨form, hmem, hform, m, hm, hfound⟩ := exists_form_of_kind hkind hne
  refine ⟨form, ?_, m, hm, hfound⟩
  rw [← hforms]
  exact mem_filter.mpr ⟨hmem, by simpa using hform⟩

/-- The forms that all languages share. -/
theorem filter_shared (hc : c.hasLanguages = true) :
    c.grammar.filter (fun form => form.kind = .closeBrace) = [closeBraceForm] ∧
      c.grammar.filter (fun form => form.kind = .openBrace) = [openBraceForm] ∧
      c.grammar.filter (fun form => form.kind = .returnLine) = [returnForm] := by
  cases c
  case plain | toIndentation | toBraces => cases hc
  all_goals exact ⟨rfl, rfl, rfl⟩

/-- A piece without braces is no line of a brace. -/
theorem PlainPiece.kind_ne (h : PlainPiece c u) (hc : c.hasLanguages = true) :
    (classify c.grammar u).kind ≠ .openBrace ∧ (classify c.grammar u).kind ≠ .closeBrace := by
  constructor
  · intro hkind
    obtain ⟨form, hform, m, hm, -⟩ := found_of_kind (filter_shared hc).2.1 hkind (by decide)
    obtain rfl := mem_singleton.mp hform
    have hreads := (of_matchStart hm).1.reads
    rw [(whole_eq_of_anchored hm rfl h.line).1] at hreads
    simp only [openBraceForm, append_eq_seq, reads_seq_iff, reads_atStart_iff,
      reads_literal_iff, reads_atEnd_iff] at hreads
    obtain ⟨_, _, _, rfl, ⟨_, _, _, rfl, ⟨rfl, -⟩, rfl, -⟩, rfl, -⟩ := hreads
    cases h.last
  · intro hkind
    obtain ⟨form, hform, m, hm, -⟩ := found_of_kind (filter_shared hc).1 hkind (by decide)
    obtain rfl := mem_singleton.mp hform
    rw [closeBrace_eq_none h.line h.close] at hm
    cases hm

theorem leavesOpen_of_value {before after : Text} (hlast : endsIn (among "([") value = true)
    (hafter : ∀ d ∈ after, isEndMark d = true) :
    leavesOpen (before ++ (value ++ after)) = true := by
  obtain ⟨front, x, rfl⟩ := (eq_nil_or_concat' value).resolve_left (ne_nil_of_endsIn hlast)
  have hx : isEndMark x = false := by
    rw [endsIn_concat] at hlast
    have hmem : x = '(' ∨ x = '[' := by simpa [among] using hlast
    rcases hmem with rfl | rfl <;> decide
  have hdrop : dropEndWhile isEndMark (before ++ (front ++ [x] ++ after)) = before ++
      (front ++ [x]) := by
    have hkeep : dropEndWhile isEndMark (before ++ (front ++ [x])) = before ++ (front ++ [x]) :=
      dropEndWhile_of_last (by rw [← append_assoc, getLast?_concat]) hx
    rw [← hkeep, ← append_assoc, dropEndWhile, dropEndWhile, reverse_append,
      dropWhile_append_of_pos fun d hd => hafter d (mem_reverse.mp hd)]
  rw [leavesOpen, hdrop, endsIn_append (by simp)]
  exact hlast

/-- A value at the end of a plain line ends in no opening bracket. -/
theorem endsIn_value_of_plain (hm : p.matchStart u = some m)
    (hanchored : p.anchored = true) (htrailing : ∀ d, p.trailing k d = true → isEndMark d = true)
    (hline : '\n' ∉ u)
    (hopen : leavesOpen u = false) (hplain : ∀ d ∈ u, isBrace d = false)
    (hvalue : m.group k = lead ++ (value ++ gap))
    (hgap : ∀ d ∈ gap, isEndMark d = true) : endsIn (among "([\x7b") value = false := by
  have hwhole := (whole_eq_of_anchored hm hanchored hline).1
  rcases (of_matchStart hm).1.group?_eq k with hnone | ⟨before, inner, after, hsome, hparts,
    hframe, -⟩
  · have hnil : value = [] := by
      have hgroup : m.group k = [] := by rw [Match.group, hnone]; rfl
      rw [hvalue] at hgroup
      simp at hgroup
      exact hgroup.2.1
    rw [hnil]
    rfl
  · have hinner : inner = lead ++ (value ++ gap) := by rw [← hvalue, Match.group, hsome]; rfl
    have hall : u = before ++ lead ++ (value ++ (gap ++ after)) := by
      rw [← hwhole, hparts, hinner]; simp
    refine Bool.eq_false_iff.mpr fun hends => ?_
    obtain ⟨front, x, rfl⟩ := (eq_nil_or_concat' value).resolve_left (ne_nil_of_endsIn hends)
    rw [endsIn_concat] at hends
    have hbracket : among "([" x = true := by
      have hmem : x = '(' ∨ x = '[' ∨ x = '{' := by simpa [among] using hends
      rcases hmem with rfl | rfl | rfl
      · rfl
      · rfl
      · cases hplain '{' (by rw [hall]; simp)
    have hopens : leavesOpen u = true := by
      rw [hall]
      refine leavesOpen_of_value (by rw [endsIn_concat, hbracket]) fun d hd => ?_
      rcases mem_append.mp hd with hd | hd
      · exact hgap d hd
      · exact htrailing d (hframe.trailing d hd)
    rw [hopen] at hopens
    cases hopens

/-- The brace at the end of an opening line ends the value that has it. -/
theorem getLast?_group_of_opening (hm : p.matchStart u = some m)
    (hanchored : p.anchored = true) (hout : p.outside k '{' = false) (hline : '\n' ∉ u)
    (hlast : u.getLast? = some '{') (hhead : ∀ d ∈ u.dropLast, isBrace d = false) :
    (m.group k).getLast? = some '{' := by
  have hwhole := (whole_eq_of_anchored hm hanchored hline).1
  have hof := (of_matchStart hm).1
  have hbrace : '{' ∈ m.whole := by
    rw [hwhole]
    exact mem_of_getLast? hlast
  obtain ⟨-, capture, hlookup, hmem⟩ := hof.reads.mem_remembered hbrace hout
  have hgroup : m.group k = capture.text := by rw [Match.group, Match.group?, hlookup]; rfl
  rw [← hgroup] at hmem
  obtain ⟨before, after, hparts⟩ := hof.group_isInfix k
  obtain ⟨x, y, hinner⟩ := append_of_mem hmem
  -- Nothing follows the brace, so the piece that has it ends there.
  have hrest : y ++ after = [] := by
    by_contra hne
    obtain ⟨front, d, hfront⟩ := (eq_nil_or_concat' (y ++ after)).resolve_left hne
    have hall : u = before ++ x ++ '{' :: front ++ [d] := by
      rw [← hwhole, ← hparts, hinner, append_assoc, append_assoc, cons_append, hfront]
      simp
    have hearly : '{' ∈ u.dropLast := by
      rw [hall, dropLast_concat]
      simp
    cases hhead _ hearly
  rw [hinner, (append_eq_nil_iff.mp hrest).1, getLast?_concat]

/-- The forms of statements that end in a value, each with the number under which it remembers the
value. -/
def valueForms : List (LineForm × Nat) :=
  [(returnForm, 1), (JavaScript.variableForm, 2), (Java.variableForm, 2),
    (CSharp.variableForm, 3)]

/-- Only blanks and semicolons follow the value of a statement. -/
theorem isEndMark_of_trailing {entry : LineForm × Nat} (hentry : entry ∈ valueForms) (d : Char)
    (h : entry.1.pattern.trailing entry.2 d = true) : isEndMark d = true := by
  have hmark : isBlank d = true ∨ d = ';' := by
    simp only [valueForms, mem_cons, not_mem_nil, or_false] at hentry
    rcases hentry with rfl | rfl | rfl | rfl
    · simpa [returnForm, HAppend.hAppend, Append.append, trailing, room,
        uses, blanks, many, maybe, little, few] using h
    · simpa [JavaScript.variableForm, JavaScript.declarationStart,
        JavaScript.declarator,
        HAppend.hAppend, Append.append, trailing, room, uses, blanks, many,
        maybe, little, few, gap, many1, keyword, oneOf, word] using h
    · simpa [Java.variableForm, HAppend.hAppend, Append.append, trailing,
        room, uses,
        blanks, many, maybe, little, few, gap, many1, keyword, oneOf, word,
        Java.declarationModifiers, Java.typeName, noneOf, modifiers] using h
    · simpa [CSharp.variableForm, CSharp.memberStart, HAppend.hAppend,
        Append.append,
        trailing, room, uses, blanks, many, maybe, little, few, gap, many1,
        keyword, oneOf, word,
        CSharp.declarationModifiers, CSharp.typeName, noneOf, modifiers,
        CSharp.typeStart] using h
  rw [isEndMark, Bool.or_eq_true, decide_eq_true_eq]
  exact hmark.symm

theorem opensLiteral_eq_false (h : endsIn (among "([\x7b") t = false) :
    ToIndent.opensLiteral t = false ∧ opensLiteral t = false ∧
    endsIn (· = '{') t = false := by
  have hbrace : endsIn (· = '{') t = false :=
    endsIn_eq_false_of_imp (fun d hd => by rw [decide_eq_true_eq.mp hd]; rfl) h
  refine ⟨?_, endsIn_eq_false_of_imp (fun d hd => ?_) h, hbrace⟩
  · unfold ToIndent.opensLiteral
    rw [hbrace, Bool.false_and, Bool.or_false]
    refine endsIn_eq_false_of_imp (fun d hd => ?_) h
    rw [Bool.or_eq_true, decide_eq_true_eq, decide_eq_true_eq] at hd
    rcases hd with rfl | rfl <;> rfl
  · have hmem : d = '{' ∨ d = '[' ∨ d = '(' := by simpa [among] using hd
    rcases hmem with rfl | rfl | rfl <;> rfl

theorem isPlain_valueMove (h : endsIn (among "([\x7b") t = false) : (valueMove t).IsPlain := by
  rw [valueMove, (opensLiteral_eq_false h).2.1]
  trivial

section

variable (h : set ' ' = true ∨ ∀ d, set d = true → d = '{')

include h

theorem endsAlike_keyed (u : Text) : EndsAlike set (keyed u) u := by
  rcases h with hblank | hbrace
  · refine endsAlike_of_end rfl fun m _ => ?_
    rw [endsIn_append (by decide)]
    exact hblank
  · exact .replaced (fun d hd => by rw [hbrace d hd]; exact mem_singleton_self _) (by decide) .rfl

theorem endsAlike_genericText (s : State)
    (u : Text) : EndsAlike set (ToIndent.genericText s u) u := by
  unfold ToIndent.genericText
  split
  · exact endsAlike_keyed h u
  · exact .rfl

end

theorem javaInitializer_of_plain (h : ∀ d ∈ value, isBrace d = false) :
    ToIndent.javaInitializer value = value := by
  have hbrace : '{' ∉ value := fun hmem => by cases h _ hmem
  have hcreation : ToIndent.arrayCreation.replaceWith [] value = value := by
    refine replaceBy_rel compatible_eq (fun _ _ => rfl) fun m hm => ?_
    -- The creation of an array is found only in front of a brace.
    obtain ⟨a, v, b, -, -, hahead⟩ := reads_seq_iff.mp hm.reads
    cases hahead with
    | ahead p s houtcomes =>
      obtain ⟨t, ht⟩ := exists_mem_of_ne_nil _ houtcomes
      obtain ⟨piece, hreads⟩ := reads_of_mem_outcomes ht
      obtain ⟨-, rest, hrest, -⟩ := reads_literal_iff.mp hreads
      obtain ⟨passed, hparts, -⟩ := hm.exists_parts
      exact absurd (by rw [hparts, hrest]; simp) hbrace
  have hstart : startsWith value "\x7b" = false := by
    refine Bool.eq_false_iff.mpr fun hstart => hbrace ?_
    have hfirst := isPrefixOf_iff_prefix.mp hstart
    exact hfirst.subset (mem_singleton_self _)
  unfold ToIndent.javaInitializer
  simp only [hcreation, hstart, Bool.false_and, Bool.false_eq_true, if_false]

theorem respelledMove_of_plain {l : Classified}
    (hends : endsIn (among "([\x7b") (l.group 2) = false)
    (hplain : ∀ d ∈ l.group 2, isBrace d = false) :
    (respelledMove .javascriptToJava l).IsPlain := by
  have halike : EndsAlike (fun d => !among "([\x7b" d) (ofJavaScript (l.group 2))
      (l.group 2) :=
    endsAlike_of_plain rfl rfl hplain
  have hother := (opensLiteral_eq_false (halike.endsIn_eq_false hends)).2.1
  unfold respelledMove valueMove
  show Move.IsPlain (if (l.group 2).isEmpty then .stay
    else if opensLiteral (ofJavaScript (l.group 2)) then .literal
    else .stay)
  rw [hother, if_neg Bool.false_ne_true, ite_self]
  trivial

namespace PlainPiece

variable (h : PlainPiece c u)

include h

theorem genericText (s : State) : endsIn (among "([\x7b") (ToIndent.genericText s u) = false := by
  have hends : EndsAlike (fun d => !among "([\x7b" d) (ToIndent.genericText s u) u :=
    endsAlike_genericText (.inl rfl) s u
  exact hends.endsIn_eq_false h.last

theorem indentGeneric (s : State) : (ToIndent.genericMove s u).IsPlain := by
  obtain ⟨hliteral, -, hbrace⟩ := opensLiteral_eq_false (h.genericText s)
  unfold ToIndent.genericMove
  rw [matchesStart, h.literal, Option.isSome_none, Bool.and_false,
    if_neg Bool.false_ne_true, hliteral,
    if_neg Bool.false_ne_true, hbrace, if_neg Bool.false_ne_true]
  trivial

theorem braceGeneric (s : State) : (genericMove s u).IsPlain := by
  obtain ⟨-, hliteral, hbrace⟩ := opensLiteral_eq_false h.last
  unfold genericMove
  rw [matchesStart, h.literal, Option.isSome_none, Bool.and_false,
    if_neg Bool.false_ne_true, hbrace,
    if_neg Bool.false_ne_true, hliteral, if_neg Bool.false_ne_true]
  trivial

/-- A plain line written with indentation. -/
theorem indentMove (hc : c.hasLanguages = true) (s : State)
    (hvalue : (classify c.grammar u).kind = .variableLine →
      ToIndent.opensLiteral (ToIndent.initializer c ((classify c.grammar u).group 2)) = false) :
    (ToIndent.move c s (classify c.grammar u)).IsPlain := by
  have hgeneric : (ToIndent.genericMove s (classify c.grammar u).line).IsPlain := by
    rw [classify_line]
    exact h.indentGeneric s
  obtain ⟨hopen, hclose⟩ := h.kind_ne hc
  cases hkind : (classify c.grammar u).kind <;> simp only [ToIndent.move, hkind]
  case openBrace => exact absurd hkind hopen
  case closeBrace => exact absurd hkind hclose
  case forHeader =>
    unfold ToIndent.loopMove
    split
    · exact hgeneric
    · split
      · trivial
      · exact hgeneric
  case classHeader => split <;> trivial
  case constructorHeader =>
    unfold ToIndent.constructorMove
    split
    · split
      · trivial
      · exact hgeneric
    · trivial
  case methodHeader =>
    split
    · trivial
    · exact hgeneric
  case variableLine =>
    rw [hvalue hkind, Bool.and_false, if_neg Bool.false_ne_true]
    trivial
  case ifHeader | elseIfHeader | elseHeader | whileHeader | tryHeader | catchHeader | finallyHeader
      | functionHeader | arrowFunction | forEachHeader | foreachHeader | returnLine | importLine
          | annotationLine
      | namespaceLine | lambda | propertyLine | constantLine | printLine | echoLine => trivial
  all_goals exact hgeneric

/-- A plain line written with braces. -/
theorem braceMove (hc : c.hasLanguages = true) (s : State)
    (hvalue : (classify c.grammar u).kind = .returnLine ∨
    (classify c.grammar u).kind = .variableLine →
      (move c s (classify c.grammar u)).IsPlain) :
      (move c s (classify c.grammar u)).IsPlain := by
  have hgeneric : (genericMove s (classify c.grammar u).line).IsPlain := by
    rw [classify_line]
    exact h.braceGeneric s
  obtain ⟨hopen, hclose⟩ := h.kind_ne hc
  cases hkind : (classify c.grammar u).kind
  case returnLine => exact hvalue (.inl hkind)
  case variableLine => exact hvalue (.inr hkind)
  case openBrace => exact absurd hkind hopen
  case closeBrace => exact absurd hkind hclose
  all_goals simp only [move, hkind]
  case namespaceLine => split <;> trivial
  case classHeader =>
    unfold classMove
    split <;> trivial
  case constructorHeader =>
    unfold constructorMove
    split
    · exact hgeneric
    · trivial
  case methodHeader =>
    unfold methodMove
    split
    · trivial
    · split <;> trivial
    · split
      · trivial
      · exact hgeneric
  case ifHeader | elseIfHeader | elseHeader | forHeader | whileHeader | tryHeader | catchHeader
    | finallyHeader
      | forEachHeader | forInHeader | interfaceHeader | mainHeader | functionHeader | arrowFunction
          | importLine
      | usingLine | annotationLine | attributeLine | lambda | propertyLine | printLine => trivial
  all_goals exact hgeneric

theorem endsIn_value (hphp : c ≠ .phpToPython)
    (hentry : (form, k) ∈ valueForms)
    (hforms : c.grammar.filter (fun form => form.kind = kind) = [form])
    (hkind : (classify c.grammar u).kind = kind) (hne : kind ≠ .generic)
    (hvalue : (classify c.grammar u).group k = lead ++ (value ++ gap))
    (hgap : ∀ d ∈ gap, isEndMark d = true) : endsIn (among "([\x7b") value = false := by
  obtain ⟨found, hfound, m, hm, hgroups⟩ := found_of_kind hforms hkind hne
  obtain rfl := mem_singleton.mp hfound
  obtain ⟨hopen, hplain⟩ := h.open_eq hphp
  have hanchored : found.pattern.anchored = true := by
    simp only [valueForms, mem_cons, not_mem_nil, or_false, Prod.mk.injEq] at hentry
    rcases hentry with ⟨rfl, -⟩ | ⟨rfl, -⟩ | ⟨rfl, -⟩ | ⟨rfl, -⟩ <;> rfl
  have hgroup : m.group k = lead ++ (value ++ gap) := by
    rw [← hvalue, Classified.group, Classified.group?, hgroups]
    rfl
  exact endsIn_value_of_plain hm hanchored (isEndMark_of_trailing hentry) h.line hopen hplain
    hgroup hgap

theorem endsIn_group (hphp : c ≠ .phpToPython) (hentry : (form, k) ∈ valueForms)
    (hforms : c.grammar.filter (fun form => form.kind = .variableLine) = [form])
    (hkind : (classify c.grammar u).kind = .variableLine) :
    endsIn (among "([\x7b") ((classify c.grammar u).group k) = false := by
  have hvalue :
      (classify c.grammar u).group k = [] ++ ((classify c.grammar u).group k ++ []) := by simp
  exact h.endsIn_value hphp hentry hforms hkind (by decide) hvalue (forall_mem_nil _)

theorem plain_group (hphp : c ≠ .phpToPython) (k : Nat) : ∀ d ∈ (classify c.grammar u).group k,
    isBrace d = false :=
  fun d hd => (h.open_eq hphp).2 d ((classify_group_isInfix _ u k).subset hd)

section

variable (hc : c.hasLanguages = true)

include hc

theorem indentValue (hstyle : c.style.closesBlocks = false)
    (hkind : (classify c.grammar u).kind = .variableLine) :
    ToIndent.opensLiteral (ToIndent.initializer c ((classify c.grammar u).group 2)) = false := by
  cases c
  case javaToPython =>
    show ToIndent.opensLiteral (ToIndent.javaInitializer _) = false
    rw [javaInitializer_of_plain (h.plain_group (by decide) 2)]
    exact (opensLiteral_eq_false (h.endsIn_group (by decide) (by simp [valueForms]) rfl hkind)).1
  case javascriptToPython =>
    exact (opensLiteral_eq_false (h.endsIn_group (by decide) (by simp [valueForms]) rfl hkind)).1
  case phpToPython =>
    have hnone : phpToPython.grammar.filter (fun form => form.kind = .variableLine) = [] := rfl
    obtain ⟨form, hform, -⟩ := found_of_kind hnone hkind (by decide)
    cases hform
  case plain | toIndentation | toBraces => cases hc
  all_goals cases hstyle

/-- A plain `return` statement written with braces opens no literal. -/
theorem braceReturn (hphp : c ≠ .phpToPython)
    (hkind : (classify c.grammar u).kind = .returnLine) :
    (valueMove
    (strip (ToIndent.withoutSemicolons ((classify c.grammar u).group 1)))).IsPlain := by
  obtain ⟨dropped, hdropped, hsemicolons⟩ :=
    dropEndWhile_parts (· = ';') ((classify c.grammar u).group 1)
  obtain ⟨lead, gap, hparts, -, hgap⟩ :=
    strip_parts (ToIndent.withoutSemicolons ((classify c.grammar u).group 1))
  have hvalue : (classify c.grammar u).group 1 =
      lead ++ (strip (ToIndent.withoutSemicolons ((classify c.grammar u).group 1)) ++
      (gap ++ dropped)) := by
    conv => lhs; rw [hdropped, show dropEndWhile (· = ';') ((classify c.grammar u).group 1) =
      _ from hparts]
    simp
  have hends :=
    h.endsIn_value hphp (by simp [valueForms]) (filter_shared hc).2.2 hkind (by decide) hvalue
      fun d hd => by
    rw [isEndMark, Bool.or_eq_true]
    rcases mem_append.mp hd with hd | hd
    · exact .inr (hgap d hd)
    · exact .inl (hsemicolons d hd)
  exact isPlain_valueMove hends

/-- A plain declaration written with braces opens no literal. -/
theorem braceVariable (hstyle : c.style.closesBlocks = true) (s : State)
    (hkind : (classify c.grammar u).kind = .variableLine) :
    (variableMove c s (classify c.grammar u)).IsPlain := by
  cases c
  case javaToJavaScript =>
    have hends := h.endsIn_group (k := 2) (by decide) (by simp [valueForms]) rfl hkind
    simp only [variableMove]
    split
    · trivial
    · split
      · exact isPlain_valueMove rfl
      · refine isPlain_valueMove (EndsAlike.endsIn_eq_false ?_ hends)
        unfold javaInitializer
        rw [javaInitializer_of_plain (h.plain_group (by decide) 2)]
        refine endsAlike_of_end rfl fun m _ => ?_
        rw [endsIn_append (by decide)]
        rfl
  case csharpToJavaScript =>
    simp only [variableMove]
    split
    · trivial
    · exact isPlain_valueMove (h.endsIn_group (by decide) (by simp [valueForms]) rfl hkind)
  case javascriptToCSharp =>
    exact isPlain_valueMove (h.endsIn_group (by decide) (by simp [valueForms]) rfl hkind)
  case javascriptToJava =>
    have hends := h.endsIn_group (k := 2) (by decide) (by simp [valueForms]) rfl hkind
    exact respelledMove_of_plain hends (h.plain_group (by decide) 2)
  case plain | toIndentation | toBraces => cases hc
  all_goals cases hstyle

end

end PlainPiece

/-- Whether a line ends in an opening brace for which no scope is opened: some statements with a
value do not look at how the value ends, and a declaration written with indentation takes the end of
a header for one. -/
def forgets (c : Conversion) (l : Classified) : Bool :=
  endsIn (· = '{') l.line &&
    match l.kind with
    | .lambda | .echoLine => true
    | .returnLine => !c.style.closesBlocks
    | .variableLine => !c.style.closesBlocks && Block.isHeader (strip (l.group 2).dropLast)
    | _ => false

theorem getLast?_strip (hlast : t.getLast? = some d) (hd : isBlank d = false) :
    (strip t).getLast? = some d := by
  obtain ⟨lead, gap, hparts, hlead, hgap⟩ := strip_parts t
  rcases eq_nil_or_concat' gap with rfl | ⟨front, x, rfl⟩
  · rw [append_nil] at hparts
    by_cases hne : strip t = []
    · rw [hne, append_nil] at hparts
      rw [hlead d (by rw [← hparts]; exact mem_of_getLast? hlast)] at hd
      cases hd
    · rw [hparts, getLast?_append_of_ne_nil _ hne] at hlast
      exact hlast
  · rw [hparts, ← append_assoc, getLast?_concat, Option.some.injEq] at hlast
    rw [← hlast, hgap x (by simp)] at hd
    cases hd

/-- A C# method that ends in an opening brace has a body of its own: it has neither an expression
body nor the final semicolon of a declaration. -/
theorem methodBody_eq_none (hm : CSharp.methodForm.pattern.matchStart u = some m)
    (hline : '\n' ∉ u) (hlast : u.getLast? = some '{') : m.group? 4 = none ∧ m.group? 5 = none := by
  obtain ⟨hof, hfirst⟩ := of_matchStart hm
  have hwhole := (whole_eq_of_anchored hm rfl hline).1
  obtain ⟨a, v, b, hparts, hbody, hend⟩ := reads_seq_iff.mp hof.reads
  obtain ⟨rfl, hv, -⟩ := reads_atEnd_iff.mp hend
  obtain ⟨front, w, tail, rfl, hfront, htail⟩ := reads_seq_iff.mp hbody
  rw [hwhole, append_nil] at hparts
  have hother : ∀ {q : Pattern}, q.nullable = false → q.endsWith '{' = false →
      ¬ Reads q w tail v := by
    intro q hnull hends hreads
    rw [hparts, getLast?_append_of_ne_nil _ (hreads.ne_nil hnull)] at hlast
    rw [hreads.endsWith hlast] at hends
    cases hends
  -- Only the last of the three endings can end in the brace, and it remembers nothing.
  have hkeep : m.last.captures = w.captures := by
    rcases reads_alt_iff.mp htail with hexpression | htail
    · exact absurd hexpression (hother rfl rfl)
    · rcases reads_alt_iff.mp htail with hsemicolon | htail
      · exact absurd hsemicolon (hother rfl rfl)
      · rcases reads_alt_iff.mp htail with hbrace | hempty
        · obtain ⟨-, rest, -, rfl⟩ := reads_literal_iff.mp hbrace
          rw [hv]
          rfl
        · rw [hv, (reads_empty_iff.mp hempty).2]
  have hnone : ∀ k, k = 4 ∨ k = 5 → m.group? k = none := by
    intro k hk
    rcases hfront.remembered k with hlookup | ⟨before, inner, after, rest, -, hframe, -⟩
    · rw [Match.group?, hkeep, hlookup, hfirst]
      rfl
    · obtain ⟨n, hroom, -⟩ := hframe.room
      rcases hk with rfl | rfl <;> cases hroom
  exact ⟨hnone 4 (.inl rfl), hnone 5 (.inr rfl)⟩

namespace OpeningPiece

variable (h : OpeningPiece c u)

include h

theorem kind_ne (hne : kind ≠ .generic)
    (hforms : (c.grammar.filter (fun form => form.kind = kind)).all
      (fun form => form.pattern.anchored && !form.pattern.endsWith '{') = true) :
    (classify c.grammar u).kind ≠ kind := by
  intro hkind
  obtain ⟨form, hform, m, hm, -⟩ := found_of_kind rfl hkind hne
  have hallowed := all_eq_true.mp hforms form hform
  rw [Bool.and_eq_true, Bool.not_eq_true'] at hallowed
  rw [matchStart_eq_none_of_endsWith hallowed.1 h.line h.last hallowed.2] at hm
  cases hm

theorem endsIn_brace : endsIn (· = '{') u = true := by
  rw [endsIn, h.last]
  rfl

theorem literalClose : literalClose.matchesStart u = false := by
  rw [matchesStart, matchStart_eq_none_of_endsWith rfl h.line h.last rfl]
  rfl

theorem indentGeneric (s : State) : (ToIndent.genericMove s u).IsOpening := by
  have hends : EndsAlike (fun d => d = '{') (ToIndent.genericText s u) u :=
    endsAlike_genericText (.inr fun d hd => decide_eq_true_eq.mp hd) s u
  unfold ToIndent.genericMove
  rw [h.literalClose, Bool.and_false, if_neg Bool.false_ne_true]
  split
  · trivial
  · rw [if_pos (hends.last h.endsIn_brace)]
    trivial

theorem braceGeneric (s : State) : (genericMove s u).IsOpening := by
  unfold genericMove
  rw [h.literalClose, Bool.and_false, if_neg Bool.false_ne_true, if_pos h.endsIn_brace]
  split <;> trivial

/-- The value of a statement of JavaScript or of a `return` statement ends in the brace. -/
theorem getLast?_group (hphp : c ≠ .phpToPython)
    (hforms : c.grammar.filter (fun form => form.kind = kind) = [form])
    (hkind : (classify c.grammar u).kind = kind) (hne : kind ≠ .generic)
    (hanchored : form.pattern.anchored = true)
    (hout : form.pattern.outside k '{' = false) :
    ((classify c.grammar u).group k).getLast? = some '{' := by
  obtain ⟨found, hfound, m, hm, hgroups⟩ := found_of_kind hforms hkind hne
  obtain rfl := mem_singleton.mp hfound
  have hlast := getLast?_group_of_opening hm hanchored hout h.line h.last (h.head hphp)
  rw [Classified.group, Classified.group?, hgroups]
  exact hlast

theorem kind_ne_of_closed (hc : c.hasLanguages = true) (kind : LineKind)
    (hkind : kind ∈ [LineKind.closeBrace, .importLine, .usingLine, .annotationLine, .attributeLine,
    .propertyLine, .constantLine, .printLine]) : (classify c.grammar u).kind ≠ kind := by
  refine h.kind_ne (by rintro rfl; simp at hkind) ?_
  revert kind
  cases c
  case plain | toIndentation | toBraces => cases hc
  all_goals decide

section

variable (hc : c.hasLanguages = true)

include hc

/-- The value of a JavaScript declaration, written with indentation. -/
theorem indentVariable (hstyle : c.style.closesBlocks = false)
    (hforgets : forgets c (classify c.grammar u) = false)
    (hkind : (classify c.grammar u).kind = .variableLine) :
    (!((classify c.grammar u).group 2).isEmpty &&
      ToIndent.opensLiteral (ToIndent.initializer c ((classify c.grammar u).group 2))) = true := by
  have hheader : Block.isHeader (strip ((classify c.grammar u).group 2).dropLast) = false := by
    simpa [forgets, hkind, hstyle, classify_line, h.endsIn_brace] using hforgets
  cases c
  case javascriptToPython =>
    have hlast := h.getLast?_group (k := 2) (by decide) rfl hkind (by decide) rfl (by decide)
    generalize (classify javascriptToPython.grammar u).group 2 = value at hlast hheader
    have hends : endsIn (· = '{') value = true := by
      rw [endsIn, hlast]
      rfl
    have hne : value.isEmpty = false := by
      rw [isEmpty_eq_false_iff]
      rintro rfl
      cases hlast
    show (!value.isEmpty && ToIndent.opensLiteral value) = true
    unfold ToIndent.opensLiteral
    rw [hne, hends, hheader]
    simp
  case javaToPython => exact absurd hkind (h.kind_ne (by decide) rfl)
  case phpToPython => exact absurd hkind (h.kind_ne (by decide) rfl)
  case plain | toIndentation | toBraces => cases hc
  all_goals cases hstyle

/-- A line that ends in an opening brace, written with indentation: a scope is opened, unless it is
forgotten. -/
theorem indentMove (hstyle : c.style.closesBlocks = false) (s : State)
    (hforgets : forgets c (classify c.grammar u) = false)
    (hopen : (classify c.grammar u).kind ≠ .openBrace) :
    (ToIndent.move c s (classify c.grammar u)).IsOpening := by
  have hgeneric : (ToIndent.genericMove s (classify c.grammar u).line).IsOpening := by
    rw [classify_line]
    exact h.indentGeneric s
  have hclosed := h.kind_ne_of_closed hc
  have hvalue := h.indentVariable hc hstyle hforgets
  cases hkind : (classify c.grammar u).kind <;> simp only [ToIndent.move, hkind]
  case openBrace => exact absurd hkind hopen
  case closeBrace | importLine | annotationLine | propertyLine | constantLine | printLine =>
    exact absurd hkind (hclosed _ (by simp))
  case namespaceLine =>
    refine absurd hkind (h.kind_ne (by decide) ?_)
    cases c
    case plain | toIndentation | toBraces => cases hc
    case javaToPython | javascriptToPython | phpToPython => decide
    all_goals cases hstyle
  case returnLine | lambda | echoLine =>
    simp [forgets, hkind, hstyle, classify_line, h.endsIn_brace] at hforgets
  case forHeader =>
    unfold ToIndent.loopMove
    split
    · exact hgeneric
    · split
      · trivial
      · exact hgeneric
  case classHeader => split <;> trivial
  case constructorHeader =>
    unfold ToIndent.constructorMove
    split
    · split
      · trivial
      · exact hgeneric
    · trivial
  case methodHeader =>
    split
    · trivial
    · exact hgeneric
  case variableLine =>
    rw [if_pos (hvalue hkind)]
    trivial
  case ifHeader | elseIfHeader | elseHeader | whileHeader | tryHeader | catchHeader | finallyHeader
      | functionHeader | arrowFunction | forEachHeader | foreachHeader => trivial
  all_goals exact hgeneric

/-- The value of a `return` statement ends in the brace. -/
theorem getLast?_returned (hphp : c ≠ .phpToPython)
    (hkind : (classify c.grammar u).kind = .returnLine) :
    (strip (ToIndent.withoutSemicolons ((classify c.grammar u).group 1))).getLast? = some '{' := by
  have hlast :=
    h.getLast?_group (k := 1) hphp (filter_shared hc).2.2 hkind (by decide) rfl (by decide)
  have hsemicolons :
      dropEndWhile (· = ';') ((classify c.grammar u).group 1) = (classify c.grammar u).group 1 :=
    dropEndWhile_of_last hlast rfl
  unfold ToIndent.withoutSemicolons
  rw [hsemicolons]
  exact getLast?_strip hlast rfl

/-- The value of a `return` statement, written with braces. -/
theorem braceReturn (hphp : c ≠ .phpToPython)
    (hkind : (classify c.grammar u).kind = .returnLine) :
    (valueMove
    (strip (ToIndent.withoutSemicolons ((classify c.grammar u).group 1)))).IsOpening := by
  unfold valueMove opensLiteral
  rw [endsIn, h.getLast?_returned hc hphp hkind]
  trivial

section

variable (hstyle : c.style.closesBlocks = true)

include hstyle

/-- The value of a JavaScript declaration, written with braces. -/
theorem braceVariable (s : State)
    (hkind : (classify c.grammar u).kind = .variableLine) :
    (variableMove c s (classify c.grammar u)).IsOpening := by
  cases c
  case javascriptToCSharp =>
    have hlast := h.getLast?_group (k := 2) (by decide) rfl hkind (by decide) rfl (by decide)
    show (valueMove _).IsOpening
    unfold valueMove opensLiteral
    rw [endsIn, hlast]
    trivial
  case javascriptToJava =>
    have hlast := h.getLast?_group (k := 2) (by decide) rfl hkind (by decide) rfl (by decide)
    simp only [variableMove]
    generalize classify javascriptToJava.grammar u = l at hlast
    have hends : endsIn (fun d => d = '{') (l.group 2) = true := by
      rw [endsIn, hlast]
      rfl
    have hvalue := (endsAlike_ofJavaScript (l.group 2)).last hends
    have hopens : opensLiteral (ofJavaScript (l.group 2)) = true := by
      refine eq_true_of_ne_false fun hclosed => ?_
      have hother : endsIn (fun d => d = '{') (ofJavaScript (l.group 2)) = false :=
        endsIn_eq_false_of_imp (fun d hd => by rw [decide_eq_true_eq.mp hd]; rfl) hclosed
      rw [hvalue] at hother
      cases hother
    unfold respelledMove valueMove
    show Move.IsOpening (if (l.group 2).isEmpty then .stay
      else if opensLiteral (ofJavaScript (l.group 2)) then .literal
      else .stay)
    rw [hopens, if_pos rfl, if_neg (by simpa using ne_nil_of_endsIn hends)]
    trivial
  case javaToJavaScript | csharpToJavaScript => exact absurd hkind (h.kind_ne (by decide) rfl)
  case plain | toIndentation | toBraces => cases hc
  all_goals cases hstyle

theorem namespace_ne
    (hkind : (classify c.grammar u).kind = .namespaceLine) :
    (classify c.grammar u).group 1 ≠ [';'] := by
  cases c
  case csharpToJavaScript =>
    have hlast := h.getLast?_group (k := 1) (by decide) rfl hkind (by decide) rfl (by decide)
    intro hsemicolon
    rw [hsemicolon] at hlast
    cases hlast
  case plain | toIndentation | toBraces => cases hc
  case javaToPython | javascriptToPython | phpToPython => cases hstyle
  all_goals exact absurd hkind (h.kind_ne (by decide) (by decide))

/-- A line that ends in an opening brace, written with braces: a scope is opened, unless it is
forgotten. -/
theorem braceMove (s : State)
    (hforgets : forgets c (classify c.grammar u) = false)
    (hopen : (classify c.grammar u).kind ≠ .openBrace) :
    (move c s (classify c.grammar u)).IsOpening := by
  have hgeneric : (genericMove s (classify c.grammar u).line).IsOpening := by
    rw [classify_line]
    exact h.braceGeneric s
  have hclosed := h.kind_ne_of_closed hc
  have hphp : c ≠ .phpToPython := by
    rintro rfl
    cases hstyle
  have hreturn := h.braceReturn hc hphp
  have hvariable := h.braceVariable hc hstyle s
  cases hkind : (classify c.grammar u).kind <;> simp only [move, hkind]
  case openBrace => exact absurd hkind hopen
  case closeBrace | importLine | usingLine | annotationLine | attributeLine | propertyLine
    | printLine =>
    exact absurd hkind (hclosed _ (by simp))
  case returnLine => exact hreturn hkind
  case variableLine => exact hvariable hkind
  case lambda => simp [forgets, hkind, classify_line, h.endsIn_brace] at hforgets
  case namespaceLine =>
    rw [if_neg (h.namespace_ne hc hstyle hkind)]
    trivial
  case methodHeader =>
    unfold methodMove
    split
    · trivial
    · have hforms : csharpToJavaScript.grammar.filter (fun form => form.kind = .methodHeader) =
          [CSharp.methodForm] := rfl
      obtain ⟨form, hform, m, hm, hfound⟩ := found_of_kind hforms hkind (by decide)
      obtain rfl := mem_singleton.mp hform
      obtain ⟨hexpression, hsemicolon⟩ := methodBody_eq_none hm h.line h.last
      rw [Classified.group, Classified.group?, Classified.group?, hfound]
      simp [hexpression, hsemicolon, Move.IsOpening]
    · split
      · trivial
      · exact hgeneric
  case classHeader =>
    unfold classMove
    split <;> trivial
  case constructorHeader =>
    unfold constructorMove
    split
    · exact hgeneric
    · trivial
  case ifHeader | elseIfHeader | elseHeader | forHeader | whileHeader | tryHeader | catchHeader
    | finallyHeader
      | forEachHeader | forInHeader | interfaceHeader | mainHeader | functionHeader
          | arrowFunction => trivial
  all_goals exact hgeneric

end

end

end OpeningPiece

end CodeConverter.Brace

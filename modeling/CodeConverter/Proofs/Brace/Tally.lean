import CodeConverter.Proofs.Brace.Depth
import CodeConverter.Proofs.Indent.Balance

/-!
# The braces written for open scopes

The braces that the output leaves open are those of the open scopes that are written. A header and
its brace are written together, whether or not the brace was read; a header that goes on after a
block takes the closing brace back from the output first; and nothing is written for a scope that is
hidden.
-/

namespace CodeConverter.Brace

open Text Pattern List Expression.ToJava ToBrace
open Indent (Plain addsOnly_collection)

variable {c : Conversion} {s t : State} {u text : Text} {code : Code} {l : Classified}
    {scope : Scope} {line : Text} {value name start : Text}

/-- The conversions that write blocks with the brace at the end of the header. -/
def writesBraces : List Conversion :=
  [.csharpToJavaScript, .javaToJavaScript, .javascriptToJava]

theorem writesBraces_cases (hc : c ∈ writesBraces) :
    c = .csharpToJavaScript ∨ c = .javaToJavaScript ∨ c = .javascriptToJava := by
  simpa [writesBraces] using hc

theorem languages_of_writesBraces (hc : c ∈ writesBraces) : c.hasLanguages = true ∧
    c ≠ .phpToPython := by
  rcases writesBraces_cases hc with rfl | rfl | rfl <;> exact ⟨rfl, by decide⟩

theorem braceAlone_eq_false (hc : c ∈ writesBraces) : c.style.braceAlone = false := by
  rcases writesBraces_cases hc with rfl | rfl | rfl <;> rfl

/-- The number of open scopes whose braces are written. -/
def State.shown (c : Conversion) (s : State) : Nat :=
  (s.scopes.filter fun scope => !c.hides scope).length

/-- The output leaves open the braces of the scopes that are written. The remembered names of
classes have none. -/
structure State.Tallies (c : Conversion) (s : State) : Prop where
  braces : openAfter 0 s.output.toList.flatten = some (s.shown c)
  names : ∀ name ∈ s.classNames, Plain name

/-- The output will leave open the braces of the scopes that are written, once the code of a visit
is added. -/
structure TalliesWith (c : Conversion) (r : State × Code) : Prop where
  braces : ∃ n, openAfter 0 r.1.output.toList.flatten = some n ∧
    openAfter n (r.2.text?.getD []) = some (r.1.shown c)
  names : ∀ name ∈ r.1.classNames, Plain name

/-- Writing a line keeps the tally of braces. -/
theorem TalliesWith.emit {r : State × Code} (h : TalliesWith c r) (depth : Nat) :
    (r.1.emit c depth r.2).Tallies c := by
  obtain ⟨n, hout, hcode⟩ := h.braces
  refine ⟨?_, h.names⟩
  show openAfter 0 (CodeConverter.emit c.style.indentSize depth r.2 r.1.output).toList.flatten =
      some (r.1.shown c)
  unfold CodeConverter.emit
  cases htext : r.2.text? with
  | none =>
    rw [htext] at hcode
    obtain rfl : n = r.1.shown c := Option.some.inj hcode
    exact hout
  | some text =>
    rw [htext] at hcode
    simp only [Array.toList_append, flatten_append]
    rw [openAfter_append_of hout, openAfter_congr (filter_indentLines _ _ text)]
    exact hcode

theorem TalliesWith.stay (hs : s.Tallies c) (hcode : Balanced (code.text?.getD []))
    (houtput : t.output = s.output)
    (hscopes : t.scopes = s.scopes) (hnames : t.classNames = s.classNames) :
    TalliesWith c (t, code) := by
  refine ⟨⟨s.shown c, by rw [houtput]; exact hs.braces, ?_⟩, by rw [hnames]; exact hs.names⟩
  rw [hcode.openAfter]
  show some ((s.scopes.filter _).length) = some ((t.scopes.filter _).length)
  rw [hscopes]

theorem TalliesWith.opened (hs : s.Tallies c) (hnames : ∀ name ∈ t.classNames, Plain name)
    (hcode : openAfter 0 (code.text?.getD []) = some 1) (houtput : t.output = s.output)
    (hscopes : t.scopes = scope :: s.scopes) (hshown : c.hides scope = false) :
    TalliesWith c (t, code) := by
  refine ⟨⟨s.shown c, by rw [houtput]; exact hs.braces, ?_⟩, hnames⟩
  have hadd := openAfter_add hcode (s.shown c)
  rw [Nat.zero_add] at hadd
  rw [hadd]
  show some (1 + (s.scopes.filter _).length) = some ((t.scopes.filter _).length)
  rw [hscopes, filter_cons_of_pos (by rw [hshown]; rfl), length_cons, Nat.add_comm]

theorem TalliesWith.hidden (hs : s.Tallies c) (hnames : ∀ name ∈ t.classNames, Plain name)
    (houtput : t.output = s.output) (hscopes : t.scopes = scope :: s.scopes)
    (hhidden : c.hides scope = true) : TalliesWith c (t, .nothing) := by
  refine ⟨⟨s.shown c, by rw [houtput]; exact hs.braces, ?_⟩, hnames⟩
  show some ((s.scopes.filter _).length) = some ((t.scopes.filter _).length)
  rw [hscopes, filter_cons_of_neg (by rw [hhidden]; exact Bool.false_ne_true)]

theorem openAfter_header (h : Balanced text) : openAfter 0 (text ++ " \x7b") = some 1 := by
  rw [openAfter_append_of h]
  rfl

theorem tallies_block (hc : c ∈ writesBraces) (hs : s.Tallies c) (htext : Balanced text)
    (hshown : c.hides scope = false) : TalliesWith c (block c s line text scope) := by
  unfold block
  rw [braceAlone_eq_false hc, if_neg Bool.false_ne_true]
  exact .opened hs hs.names (openAfter_header htext) rfl rfl hshown

/-- A header that continues a block takes the brace that closes the block back from the output. -/
theorem tallies_continuedBlock (hc : c ∈ writesBraces) (hs : s.Tallies c) (htext : Balanced text) :
    TalliesWith c (continuedBlock c s line text) := by
  have hbrace := braceAlone_eq_false hc
  unfold continuedBlock
  by_cases hclosed : (!c.style.braceAlone && (s.output.back?.map strip) = some ['}']) = true
  · rw [if_pos hclosed]
    unfold block
    rw [hbrace, if_neg Bool.false_ne_true]
    obtain ⟨last, hlast, hstrip⟩ : ∃ last, s.output.back? = some last ∧ strip last = ['}'] := by
      simpa [hbrace] using hclosed
    have hparts : s.output.toList = s.output.pop.toList ++ [last] := by
      rw [Array.toList_pop,
        dropLast_append_getLast? last (by rw [Array.getLast?_toList]; exact hlast)]
    have hbraces := hs.braces
    rw [hparts, flatten_append, openAfter_append, Option.bind_eq_some_iff] at hbraces
    obtain ⟨n, hpop, hbrace⟩ := hbraces
    have hlastBrace : openAfter n ['}'] = some (s.shown c) := by
      rw [← hstrip, openAfter_congr (filter_strip last)]
      simpa using hbrace
    refine ⟨⟨n, hpop, ?_⟩, hs.names⟩
    cases n with
    | zero => cases hlastBrace
    | succ n =>
      obtain rfl : n = s.shown c := Option.some.inj hlastBrace
      show openAfter (s.shown c + 1) ("\x7d " ++ text ++ " \x7b") = some (s.shown c + 1)
      have htail := openAfter_add (openAfter_header htext) (s.shown c)
      rw [Nat.zero_add, Nat.add_comm] at htail
      rw [append_assoc]
      exact htail
  · rw [if_neg hclosed]
    exact tallies_block hc hs htext rfl

/-- Whether the piece remembered under a number has no brace or something behind it. -/
def keepsBraceOut (p : Pattern) (k : Nat) : Bool :=
  (p.room k).all (0 < ·) || !p.inside k '{'

theorem plain_group {p : Pattern} {m : Match} {k : Nat} (hu : OnlyFinal u)
    (hm : p.matchStart u = some m) (hk : keepsBraceOut p k = true) : Plain (m.group k) := by
  obtain ⟨hof, hfirst⟩ := of_matchStart hm
  have htext : u = m.whole ++ m.last.ahead := by
    have hahead := hof.ahead_eq
    rwa [hfirst] at hahead
  rcases hof.group?_eq k with hnone | ⟨before, inner, after, hsome, hparts, hframe, -⟩
  · rw [Match.group, hnone]
    exact fun d hd => by cases hd
  · have hgroup : m.group k = inner := by rw [Match.group, hsome]; rfl
    rw [hgroup]
    intro d hd
    rcases brace_cases d with rfl | rfl | hother
    · obtain ⟨x, y, rfl⟩ := append_of_mem hd
      have hnil :=
        hu.eq_nil (before ++ x) (y ++ (after ++ m.last.ahead)) (by rw [htext, hparts]; simp)
      obtain ⟨n, hroom, hle⟩ := hframe.room
      rw [keepsBraceOut, hroom, hframe.inside _ hd] at hk
      have hafter : after = [] := by simp at hnil; exact hnil.2.1
      rw [hafter] at hle
      simp at hk hle
      omega
    · exact absurd (show '}' ∈ u by rw [htext, hparts]; simp [hd]) hu.not_mem
    · exact hother

/-- The kinds of lines whose remembered pieces have no brace. -/
def bracelessKinds : List LineKind :=
  [.ifHeader, .elseIfHeader, .elseHeader, .forHeader, .whileHeader, .tryHeader, .catchHeader,
    .finallyHeader,
    .interfaceHeader, .classHeader, .mainHeader, .constructorHeader, .functionHeader,
    .arrowFunction, .methodHeader, .forEachHeader, .forInHeader, .printLine]

theorem keepsBraceOut_header (hc : c ∈ writesBraces) {form : LineForm} (hform : form ∈ c.grammar)
    (hkind : form.kind ∈ bracelessKinds) {k : Nat} (hk : k ∈ [1, 2, 3, 4]) :
    keepsBraceOut form.pattern k = true := by
  revert k form
  rcases writesBraces_cases hc with rfl | rfl | rfl <;> decide

theorem plain_header (hc : c ∈ writesBraces) (hu : OnlyFinal u)
    (hkind : (classify c.grammar u).kind ∈ bracelessKinds)
    {k : Nat} (hk : k ∈ [1, 2, 3, 4]) : Plain ((classify c.grammar u).group k) := by
  have hne : (classify c.grammar u).kind ≠ .generic := by
    intro hgeneric
    rw [hgeneric] at hkind
    exact absurd hkind (by decide)
  obtain ⟨form, hmem, hform, m, hm, hfound⟩ := exists_form_of_kind rfl hne
  rw [Classified.group, Classified.group?, hfound]
  exact plain_group hu hm (keepsBraceOut_header hc hmem (by rwa [hform]) hk)

theorem balanced_join {sep : Text} {pieces : List Text} (hsep : Balanced sep)
    (h : ∀ piece ∈ pieces, Balanced piece) : Balanced (join sep pieces) := by
  induction pieces with
  | nil => rfl
  | cons piece pieces ih =>
    rw [forall_mem_cons] at h
    cases pieces with
    | nil =>
      rw [join_singleton]
      exact h.1
    | cons next pieces =>
      rw [join_cons_cons]
      exact h.1.append (hsep.append (ih h.2))

theorem balanced_javaToJavaScript (h : Plain text) :
    Balanced (Parameter.javaToJavaScript text) := by
  refine balanced_join rfl fun piece hpiece => ?_
  obtain ⟨p, hp, hname⟩ := mem_filterMap.mp hpiece
  obtain ⟨name, hlast, rfl⟩ := Option.map_eq_some_iff.mp hname
  have hin : name <:+: text :=
    (infix_of_mem_words (mem_of_getLast? hlast)).trans (infix_of_mem_splitArguments hp)
  have hplain : Balanced name := .of_plain (h.part hin.subset)
  split
  · exact hplain.lead rfl
  · exact hplain

/-- C# parameters for JavaScript. -/
theorem balanced_csharpToJavaScript (h : Plain text) :
    Balanced (join ", " (Parameter.csharpToJavaScript text)) := by
  refine balanced_join rfl fun piece hpiece => ?_
  obtain ⟨p, hp, hname⟩ := mem_filterMap.mp hpiece
  have hplain : Plain p := h.part (infix_of_mem_splitArguments hp).subset
  have hdefault : Plain (strip (cut '=' p).2) :=
    hplain.part ((strip_isInfix _).trans (cut_snd_suffix '=' p).isInfix).subset
  simp only [Parameter.csharpParameter] at hname
  split at hname
  · cases hname
  · rename_i mode rest hwords
    have hlast : (mode :: rest).getLastD [] ∈ words (cut '=' p).1 := by
      rw [hwords, getLastD_eq_getLast?, getLast?_cons]
      exact mem_of_getLast? getLast?_cons
    have hname' : Balanced ((mode :: rest).getLastD []) := .of_plain
      (hplain.part ((infix_of_mem_words hlast).trans (cut_fst_isPrefix '=' p).isInfix).subset)
    split at hname
    · obtain rfl := Option.some.inj hname
      exact hname'.lead rfl
    · split at hname
      · obtain rfl := Option.some.inj hname
        exact hname'
      · obtain rfl := Option.some.inj hname
        exact (hname'.trail (by decide)).append (.of_plain hdefault)

theorem balanced_javascriptToJava (h : Plain text) :
    Balanced (join ", " (Parameter.javascriptToJava text)) := by
  refine balanced_join rfl fun piece hpiece => ?_
  obtain ⟨p, hp, rfl⟩ := mem_map.mp hpiece
  have hplain : Plain p := h.part (infix_of_mem_splitArguments hp).subset
  have hname : Plain (strip (cut '=' p).1) :=
    hplain.part ((strip_isInfix _).trans (cut_fst_isPrefix '=' p).isInfix).subset
  simp only
  split
  · rename_i name hmark
    refine .lead (.of_plain (hname.part ?_)) rfl
    rw [eq_append_of_dropPrefix? hmark]
    exact subset_append_right _ _
  · exact (Balanced.of_plain hname).lead rfl

theorem endsIn_brace_of_closed (h : opensLiteral value = false) : endsIn (· = '{') value = false :=
  endsIn_eq_false_of_imp (fun d hd => by rw [decide_eq_true_eq.mp hd]; rfl) h

/-- A line that may end in a brace and has none otherwise. It closes no literal, and opens one only
by the brace. -/
structure Outlined (u : Text) : Prop where
  final : OnlyFinal u
  literal : Grammar.literalClose.matchesStart u = false
  opens : opensLiteral u = true → endsIn (· = '{') u = true

theorem PlainPiece.outlined (h : PlainPiece c u) (hphp : c ≠ .phpToPython) : Outlined u where
  final := .of_plain (h.open_eq hphp).2
  literal := by
    rw [matchesStart, h.literal]
    rfl
  opens := fun hopens => by
    rw [(opensLiteral_eq_false h.last).2.1] at hopens
    cases hopens

theorem OpeningPiece.outlined (h : OpeningPiece c u) (hphp : c ≠ .phpToPython) : Outlined u where
  final := by
    obtain ⟨front, hfront⟩ := getLast?_eq_some_iff.mp h.last
    refine ⟨front, fun d hd => h.head hphp d ?_, .inr hfront⟩
    rw [hfront, dropLast_concat]
    exact hd
  literal := h.literalClose
  opens := fun _ => h.endsIn_brace

theorem State.Tallies.enterClass (h : s.Tallies c) (hname : Plain name) :
    (s.enterClass name).Tallies c :=
  ⟨h.braces, forall_mem_cons.mpr ⟨hname, h.names⟩⟩

theorem meets_csharpBase (h : Plain text) : Yields Plain (csharpBase text) := by
  unfold csharpBase
  refine .either (.ok fun d hd => by cases hd) ?_
  split
  · exact .error trivial
  · rename_i first rest hentries
    refine .ok ?_
    have hfirst : Plain first :=
      h.part (infix_of_mem_splitArguments (by rw [hentries]; exact mem_cons_self)).subset
    have hbase : Plain (baseArguments.replaceWith [] first) :=
      hfirst.addsOnly (addsOnly_replaceWith _ first rfl)
    split
    · exact fun d hd => by cases hd
    · exact hbase

section Visits

variable (hc : c ∈ writesBraces)

include hc

theorem meets_expression_braces (h : OnlyFinal text) :
    Yields (fun out => SameBraces out text) (c.expression text) := by
  rcases writesBraces_cases hc with rfl | rfl | rfl
  · exact .ok (Expression.ToJavaScript.sameBraces_ofCSharp h)
  · exact .ok (Expression.ToJavaScript.sameBraces_ofJava h)
  · exact .ok (.of_filter (filter_ofJavaScript h))

theorem meets_expression_balanced (h : Plain text) :
    Yields (fun out => Balanced out) (c.expression text) :=
  (meets_expression_braces hc (.of_plain h)).imp fun _ hout =>
    (hout 0).trans (openAfter_of_plain h 0)

variable (hs : s.Tallies c)

include hs

theorem meets_conditionHeader_tallies (hstart : Plain start) (hgroup : Plain (l.group 1)) :
    Yields (TalliesWith c) (conditionHeader c s l start) := by
  unfold conditionHeader
  refine (meets_expression_balanced hc hgroup).bind fun out hout => .ok ?_
  refine tallies_block hc hs ?_ rfl
  exact (((Balanced.of_plain hstart).trail (by decide)).append hout).trail (by decide)

/-- An `else if` header. -/
theorem meets_elseIfHeader_tallies (hgroup : Plain (l.group 1)) :
    Yields (TalliesWith c) (elseIfHeader c s l) := by
  unfold elseIfHeader
  refine (meets_expression_balanced hc hgroup).bind fun out hout => .ok ?_
  refine tallies_continuedBlock hc hs ?_
  exact hout.enclose rfl rfl

theorem meets_forHeader_tallies (hline : OnlyFinal line) :
    Yields (TalliesWith c) (forHeader c s line) := by
  have hhead : Plain (stripEnd (dropEndWhile (· = '{') line)) := by
    refine .part ?_ (stripEnd_isPrefix _).subset
    obtain ⟨head, hhead, rfl | rfl⟩ := hline
    · exact .part hhead (dropEndWhile_isPrefix _ _).subset
    · rw [dropEndWhile_concat head rfl]
      exact .part hhead (dropEndWhile_isPrefix _ _).subset
  have hloop : Plain (loopStart.replaceWith ("for (" ++ c.style.loopDeclaration)
      (stripEnd (dropEndWhile (· = '{') line))) := by
    refine hhead.addsOnly (addsOnly_replaceWith _ _ ?_)
    rcases writesBraces_cases hc with rfl | rfl | rfl <;> decide
  unfold forHeader
  refine (meets_expression_balanced hc hloop).bind fun out hout => .ok ?_
  exact tallies_block hc hs hout rfl

/-- A `catch` header. -/
theorem catchHeader_tallies (hgroup : Plain (l.group 2)) : TalliesWith c (catchHeader c s l) := by
  unfold catchHeader
  refine tallies_continuedBlock hc hs ?_
  have htype : Balanced c.style.catchType := by
    rcases writesBraces_cases hc with rfl | rfl | rfl <;> decide
  have hname : Balanced (if (l.group 2).isEmpty then ("e" : Text) else l.group 2) := by
    split
    · decide
    · exact .of_plain hgroup
  exact ((htype.lead (by decide)).append hname).trail (by decide)

theorem meets_valueStatement_tallies (hstart : Plain start) (hvalue : OnlyFinal value)
    (hopens : opensLiteral value = true → endsIn (· = '{') value = true) :
    Yields (TalliesWith c) (valueStatement c s start value) := by
  unfold valueStatement
  refine (meets_expression_braces hc hvalue).bind fun out hout => ?_
  refine .ite (fun hliteral => .ok ?_) fun hclosed => .ok ?_
  · refine .opened hs hs.names ?_ rfl rfl rfl
    show openAfter 0 (start ++ out) = some 1
    rw [openAfter_append_of (openAfter_of_plain hstart 0), hout,
      hvalue.openAfter_of_brace (hopens hliteral)]
  · have hplain : Plain value :=
      hvalue.plain_of_end (endsIn_brace_of_closed (Bool.eq_false_iff.mpr hclosed))
    refine .stay hs ?_ rfl rfl rfl
    refine Balanced.trail ((Balanced.of_plain hstart).append ?_) rfl
    exact (hout 0).trans (openAfter_of_plain hplain 0)

/-- A line of no particular form keeps the tally. -/
theorem meets_generic_tallies (hu : Outlined u) : Yields (TalliesWith c) (generic c s u) := by
  unfold generic
  rw [hu.literal, Bool.and_false, if_neg Bool.false_ne_true]
  refine .ite (fun hbrace => ?_) fun hother => ?_
  · have hhead : Plain (stripEnd u.dropLast) :=
      Indent.Plain.part hu.final.plain_dropLast (stripEnd_isPrefix _).subset
    refine .either ?_ ?_
    · refine (meets_expression_balanced hc hhead).bind fun out hout => .ok ?_
      exact tallies_block hc hs hout rfl
    · refine (meets_expression_braces hc hu.final).bind fun out hout => .ok ?_
      refine .opened hs hs.names ?_ rfl rfl rfl
      exact (hout 0).trans (hu.final.openAfter_of_brace hbrace 0)
  · refine .ite (fun hopens => absurd (hu.opens hopens) hother) fun _ => ?_
    have hplain : Plain u := hu.final.plain_of_end (Bool.eq_false_iff.mpr hother)
    refine (meets_expression_balanced hc hplain).bind fun out hout => .ok (.stay hs ?_ rfl rfl rfl)
    show Balanced (terminate c s out)
    unfold terminate
    split
    · exact hout
    · exact hout.trail rfl

theorem classHeader_tallies {between base : Text} (hname : Plain (l.group 1)) (hstart : Plain start)
    (hbetween : Plain between) (hbase : Plain base) :
    TalliesWith c (classHeader c (s.enterClass (l.group 1)) l start between base) := by
  have hheader : Balanced (start ++ l.group 1) :=
    (Balanced.of_plain hstart).append (.of_plain hname)
  unfold classHeader
  split
  · exact tallies_block hc (hs.enterClass hname) hheader rfl
  · refine tallies_block hc (hs.enterClass hname) ?_ rfl
    exact (hheader.append (.of_plain hbetween)).append (.of_plain hbase)

theorem meets_visitClass_tallies (hname : Plain (l.group 1)) (hbase : Plain (l.group 2)) :
    Yields (TalliesWith c) (visitClass c s l) := by
  have hmember : Plain "class " ∧ Plain " extends " ∧ Plain "static class " := by
    refine ⟨?_, ?_, ?_⟩ <;> exact plain_of_filter rfl
  obtain ⟨hclass, hextends, hstatic⟩ := hmember
  rcases writesBraces_cases hc with rfl | rfl | rfl
  · refine (meets_csharpBase hbase).bind fun base hplain => .ok ?_
    exact classHeader_tallies hc hs hname hclass hextends hplain
  · refine .either (.ok ?_) (.ok ?_)
    · exact classHeader_tallies hc hs hname hclass hextends hbase
    · exact .hidden hs (hs.enterClass hname).names rfl rfl rfl
  · exact .ok (classHeader_tallies hc hs hname hstatic hextends hbase)

/-- A constructor header. -/
theorem meets_constructorHeader_tallies (hu : Outlined l.line)
    (hgroups : ∀ k ∈ [1, 2, 3, 4], Plain (l.group k)) :
    Yields (TalliesWith c) (constructorHeader c s l) := by
  rcases writesBraces_cases hc with rfl | rfl | rfl
  · show Meets _ _ (csharpConstructor _ s l)
    unfold csharpConstructor
    refine .either (meets_generic_tallies hc hs hu) ?_
    have hparameters := balanced_csharpToJavaScript (hgroups 2 (by simp))
    have htext :
        Balanced ("constructor(" ++ join ", " (Parameter.csharpToJavaScript (l.group 2)) ++ ")") :=
      hparameters.enclose rfl rfl
    refine .either (.ok (tallies_block hc hs htext rfl)) ?_
    refine (meets_expression_balanced hc (hgroups 4 (by simp))).bind fun out hout => .ok ?_
    have hcall :
        Balanced (replicate Conversion.csharpToJavaScript.style.indentSize ' ' ++ "super(" ++
        out ++ ");") :=
      hout.enclose rfl rfl
    -- The call of the base constructor follows the brace of the header.
    refine .opened hs hs.names ?_ rfl rfl rfl
    show openAfter 0 (unlines [_ ++ " \x7b", _]) = some 1
    rw [openAfter_unlines, flatten_cons, openAfter_append_of (openAfter_header htext),
      flatten_singleton, hcall.openAfter]
  · show Meets _ _ (javaConstructor _ s l)
    unfold javaConstructor
    refine .either (meets_generic_tallies hc hs hu) (.ok ?_)
    refine tallies_block hc hs ?_ rfl
    refine ((Balanced.trail ?_ (by decide)).append
      (balanced_javaToJavaScript (hgroups 2 (by simp)))).trail (by decide)
    split
    · exact (Balanced.of_plain (hgroups 1 (by simp))).lead rfl
    · decide
  · refine .ok (tallies_block hc hs ?_ rfl)
    have hname : Balanced (className s) := by
      unfold className
      cases hnames : s.classNames with
      | nil => decide
      | cons name names => exact .of_plain (hs.names name (by rw [hnames]; exact mem_cons_self))
    exact ((hname.enclose (by decide) (by decide)).append
      (balanced_javascriptToJava (hgroups 1 (by simp)))).trail (by decide)

theorem functionHeader_tallies (hjava : c = .javascriptToJava) (hname : Plain (l.group 1))
    (hparameters : Plain (l.group 2)) : TalliesWith c (functionHeader c s l) := by
  subst hjava
  unfold functionHeader
  simp only
  split
  · exact tallies_block hc (s := { s with hasMain := true }) ⟨hs.braces, hs.names⟩ rfl rfl
  · refine tallies_block hc hs ?_ rfl
    exact (((Balanced.of_plain hname).enclose (by decide) (by decide)).append
      (balanced_javascriptToJava hparameters)).trail (by decide)

/-- A method header. -/
theorem meets_methodHeader_tallies (hu : Outlined l.line)
    (hgroups : ∀ k ∈ [1, 2, 3, 4], Plain (l.group k)) :
    Yields (TalliesWith c) (methodHeader c s l) := by
  have hmember : ∀ (isStatic : Bool) {parameters : Text}, Balanced parameters →
      Balanced (memberHeader s isStatic (l.group 2) parameters) := by
    intro isStatic parameters hparameters
    have hname : Balanced (l.group 2) := .of_plain (hgroups 2 (by simp))
    have hstatic : Balanced (staticWord isStatic) := by cases isStatic <;> decide
    unfold memberHeader
    split
    · exact (((hstatic.append hname).trail (by decide)).append hparameters).trail (by decide)
    · exact ((hname.enclose (by decide) (by decide)).append hparameters).trail (by decide)
  rcases writesBraces_cases hc with rfl | rfl | rfl
  · show Meets _ _ (csharpMethod _ s l)
    unfold csharpMethod
    refine .either (.ok (.stay hs rfl rfl rfl rfl)) ?_
    have hheader := hmember (hasModifier (words (l.group 1)) "static")
      (balanced_csharpToJavaScript (hgroups 3 (by simp)))
    have hvalue := hgroups 4 (by simp)
    simp only
    split
    · exact .ok (tallies_block hc hs hheader rfl)
    · rename_i value heq
      refine (meets_expression_balanced hc hvalue).bind fun out hout =>
        .ok (.stay hs ?_ rfl rfl rfl)
      generalize memberHeader s _ (l.group 2) _ = header at hheader
      -- The brace of a body on the same line is closed there.
      have hopen : openAfter 0 (header ++ " \x7b return ") = some 1 := by
        rw [openAfter_append_of hheader]
        rfl
      have hbody : openAfter 0 (header ++ " \x7b return " ++ out) = some 1 := by
        rw [openAfter_append_of hopen, hout.openAfter]
      show openAfter 0 (header ++ " \x7b return " ++ out ++ "; \x7d") = some 0
      rw [openAfter_append_of hbody]
      rfl
  · refine .ok (tallies_block hc hs ?_ rfl)
    exact hmember _ (balanced_javaToJavaScript (hgroups 3 (by simp)))
  · show Meets _ _ (typedMethod _ s l _ _)
    unfold typedMethod
    refine .either (.ok ?_) (meets_generic_tallies hc hs hu)
    refine tallies_block hc hs ?_ rfl
    have hstart :
        Balanced (if (l.group? 1).isSome then ("public static " : Text) else "public ") := by
      split <;> decide
    exact (((((hstart.trail (by decide)).trail (by decide)).append
      (.of_plain (hgroups 2 (by simp)))).trail (by decide)).append
      (balanced_javascriptToJava (hgroups 3 (by simp)))).trail rfl

theorem meets_field_tallies {isStatic : Bool} (hname : Plain name) (hvalue : Plain value) :
    Yields (TalliesWith c) (ToBrace.field c s isStatic name value) := by
  have hstart : Balanced (staticWord isStatic ++ name) :=
    Balanced.append (by cases isStatic <;> decide) (.of_plain hname)
  unfold ToBrace.field
  refine .either (.ok (.stay hs ?_ rfl rfl rfl)) ?_
  · exact hstart.trail rfl
  · refine (meets_expression_balanced hc hvalue).bind fun out hout => .ok (.stay hs ?_ rfl rfl rfl)
    exact ((hstart.trail (by decide)).append hout).trail (by decide)

theorem meets_localVariable_tallies {isConstant : Bool} (hname : Plain name)
    (hvalue : OnlyFinal value)
    (hopens : opensLiteral value = true → endsIn (· = '{') value = true) :
    Yields (TalliesWith c) (localVariable c s isConstant name value) := by
  have hkeyword : ∀ isConstant : Bool,
      (if isConstant then ("const " : Text) else "let ").filter isBrace = [] := by decide
  have hstart : Plain ((if isConstant then ("const " : Text) else "let ") ++ name) := by
    refine plain_of_filter ?_
    rw [filter_append, hkeyword, filter_isBrace_eq_nil hname]
    rfl
  unfold localVariable
  simp only
  refine .either (.ok (.stay hs ?_ rfl rfl rfl)) ?_
  · exact (Balanced.of_plain hstart).trail rfl
  · refine meets_valueStatement_tallies hc hs (plain_of_filter ?_) hvalue hopens
    rw [filter_append, filter_isBrace_eq_nil hstart]
    rfl

end Visits

theorem plain_javaInitializer (h : Plain value) : Plain (javaInitializer value) := by
  unfold javaInitializer
  rw [javaInitializer_of_plain h]
  exact h.addsOnly (addsOnly_group 1 value (by decide))

/-- A variable declaration for Java. -/
theorem meets_variableForJava_tallies (hs : s.Tallies .javascriptToJava) (hname : Plain (l.group 1))
    (hvalue : OnlyFinal (l.group 2))
    (hopens : opensLiteral (ofJavaScript (l.group 2)) = true →
      endsIn (· = '{') (l.group 2) = true) :
    Yields (TalliesWith .javascriptToJava) (variableForJava .javascriptToJava s l) := by
  have hfilter := filter_ofJavaScript hvalue
  have hends := endsAlike_ofJavaScript (l.group 2)
  have hstatic : ∀ isStatic : Bool, Balanced (staticWord isStatic) := by decide
  unfold variableForJava
  refine .either (.ok (.stay hs ?_ rfl rfl rfl)) ?_
  · exact (((hstatic _).trail (by decide)).append (.of_plain hname)).trail (by decide)
  · show Meets _ _ (.ok _ >>= _)
    generalize ofJavaScript (l.group 2) = value at *
    refine .ite (fun hliteral => .ok ?_) fun hclosed => .ok (.stay hs ?_ rfl rfl rfl)
    · refine .opened hs hs.names ?_ rfl rfl rfl
      have hstart : Balanced (staticWord s.scopes.isEmpty ++ "Object " ++ l.group 1 ++ " = ") :=
        (((hstatic _).trail (by decide)).append (.of_plain hname)).trail (by decide)
      show openAfter 0 (_ ++ value) = some 1
      rw [openAfter_append_of hstart, openAfter_congr hfilter,
        hvalue.openAfter_of_brace (hopens hliteral)]
    · have hplain : Plain value := by
        refine plain_of_filter (hfilter.trans (filter_isBrace_eq_nil (hvalue.plain_of_end ?_)))
        refine Bool.eq_false_iff.mpr fun hbrace => ?_
        have hother := endsIn_brace_of_closed (Bool.eq_false_iff.mpr hclosed)
        rw [hends.last hbrace] at hother
        cases hother
      have htype :
          Balanced (((Literal.Kind.of? value).map TypeName.javaLiteral).getD "Object") := by
        cases Literal.Kind.of? value with
        | none => decide
        | some kind => cases kind <;> decide
      exact ((((((hstatic _).append htype).trail (by decide)).append (.of_plain hname)).trail
        (by decide)).append (.of_plain (hplain.addsOnly (addsOnly_collection value)))).trail rfl

section

variable (hc : c ∈ writesBraces) (hs : s.Tallies c)

include hc hs

/-- A variable declaration. -/
theorem meets_variableLine_tallies (hpiece : PlainPiece c u ∨ OpeningPiece c u)
    (hkind : (classify c.grammar u).kind = .variableLine) :
    Yields (TalliesWith c) (variableLine c s (classify c.grammar u)) := by
  have hcase := writesBraces_cases hc
  rcases hpiece with h | h
  · have hphp : c ≠ .phpToPython := by
      rintro rfl
      simp at hcase
    have hplain : ∀ k, Plain ((classify c.grammar u).group k) := fun k =>
      Indent.Plain.part (h.open_eq hphp).2 (classify_group_isInfix _ u k).subset
    rcases hcase with rfl | rfl | rfl
    · have hends := h.endsIn_group (k := 3) (by decide) (by simp [valueForms]) rfl hkind
      show Meets _ _ (csharpVariable _ s _)
      unfold csharpVariable
      refine .either (meets_field_tallies hc hs (hplain 2) (hplain 3)) ?_
      refine meets_localVariable_tallies hc hs (hplain 2) (.of_plain (hplain 3)) fun hopens => ?_
      rw [(opensLiteral_eq_false hends).2.1] at hopens
      cases hopens
    · have hmove := h.braceVariable rfl rfl s hkind
      show Meets _ _ (javaVariable _ s _)
      unfold javaVariable
      refine .ite (fun _ => meets_field_tallies hc hs (hplain 1) (hplain 2)) fun hclass => ?_
      simp only [variableMove, if_neg hclass] at hmove
      refine meets_localVariable_tallies hc hs (hplain 1) ?_ fun hopens => ?_
      · split
        · exact .of_plain fun d hd => by cases hd
        · exact .of_plain (plain_javaInitializer (hplain 2))
      · rw [valueMove, if_pos hopens] at hmove
        cases hmove
    · have hends := h.endsIn_group (k := 2) (by decide) (by simp [valueForms]) rfl hkind
      refine meets_variableForJava_tallies hs (hplain 1) (.of_plain (hplain 2)) fun hopens => ?_
      have halike : EndsAlike (fun d => !among "([\x7b" d) _ _ :=
        endsAlike_of_plain rfl rfl (hplain 2)
      rw [(opensLiteral_eq_false (halike.endsIn_eq_false hends)).2.1] at hopens
      cases hopens
  · rcases hcase with rfl | rfl | rfl
    · exact absurd hkind (h.kind_ne (by decide) rfl)
    · exact absurd hkind (h.kind_ne (by decide) rfl)
    · have hlast := h.getLast?_group (k := 2) (by decide) rfl hkind (by decide) rfl (by decide)
      have hname : Plain ((classify Conversion.javascriptToJava.grammar u).group 1) := by
        have hforms :
            Conversion.javascriptToJava.grammar.filter (fun form => form.kind = .variableLine) =
            [Grammar.JavaScript.variableForm] := rfl
        obtain ⟨form, hform, m, hm, hfound⟩ := found_of_kind hforms hkind (by decide)
        obtain rfl := mem_singleton.mp hform
        rw [Classified.group, Classified.group?, hfound]
        exact plain_group (h.outlined (by decide)).final hm (by decide)
      have hvalue :=
        (h.outlined (by decide)).final.part
          (classify_group_isInfix Conversion.javascriptToJava.grammar u 2)
      refine meets_variableForJava_tallies hs hname hvalue fun _ => ?_
      rw [endsIn, hlast]
      rfl

/-- A `return` statement. -/
theorem meets_returnLine_tallies (hpiece : PlainPiece c u ∨ OpeningPiece c u)
    (hkind : (classify c.grammar u).kind = .returnLine) :
    Yields (TalliesWith c) (returnLine c s (classify c.grammar u)) := by
  have hlanguages := languages_of_writesBraces hc
  have hu : OnlyFinal u := hpiece.elim (fun h => (h.outlined hlanguages.2).final) fun h =>
    (h.outlined hlanguages.2).final
  have hvalue : OnlyFinal (strip (ToIndent.withoutSemicolons ((classify c.grammar u).group 1))) :=
    hu.part (((strip_isInfix _).trans (dropEndWhile_isPrefix _ _).isInfix).trans
      (classify_group_isInfix _ u 1))
  have hopens : opensLiteral (strip (ToIndent.withoutSemicolons ((classify c.grammar u).group 1))) =
      true →
      endsIn (· = '{') (strip (ToIndent.withoutSemicolons ((classify c.grammar u).group 1))) =
      true := by
    intro hopens
    rcases hpiece with h | h
    · have hmove := h.braceReturn hlanguages.1 hlanguages.2 hkind
      rw [valueMove, if_pos hopens] at hmove
      cases hmove
    · rw [endsIn, h.getLast?_returned hlanguages.1 hlanguages.2 hkind]
      rfl
  unfold returnLine
  split
  · exact .ok (.stay hs rfl rfl rfl rfl)
  · exact meets_valueStatement_tallies hc hs (plain_of_filter rfl) hvalue hopens

/-- A print statement. -/
theorem meets_printLine_tallies (hgroups : ∀ k ∈ [1, 2, 3, 4], Plain (l.group k)) :
    Yields (TalliesWith c) (printLine c s l) := by
  rcases writesBraces_cases hc with rfl | rfl | rfl
  · refine (meets_expression_balanced hc (hgroups 1 (by simp))).bind fun out hout =>
      .ok (.stay hs ?_ rfl rfl rfl)
    exact hout.enclose rfl rfl
  · refine (meets_expression_balanced hc (hgroups 2 (by simp))).bind fun out hout =>
      .ok (.stay hs ?_ rfl rfl rfl)
    exact hout.enclose rfl rfl
  · have hjoined : Yields Balanced (joinedArguments .javascriptToJava (l.group 1)) := by
      refine (Meets.mapM fun argument hargument => ?_).bind fun outs houts =>
        .ok (balanced_join rfl houts)
      exact meets_expression_balanced hc
        (Indent.Plain.part (hgroups 1 (by simp)) (infix_of_mem_splitArguments hargument).subset)
    refine hjoined.bind fun out hout => .ok (.stay hs ?_ rfl rfl rfl)
    exact hout.enclose rfl rfl

theorem meets_forEachHeader_tallies
    (hgroups : ∀ k ∈ [1, 2, 3, 4], Plain (l.group k)) :
    Yields (TalliesWith c) (forEachHeader c s l) := by
  have hname : Balanced (l.group 1) := .of_plain (hgroups 1 (by simp))
  unfold forEachHeader
  refine (meets_expression_balanced hc (hgroups 2 (by simp))).bind fun out hout => ?_
  rcases writesBraces_cases hc with rfl | rfl | rfl
  all_goals
    refine .ok (tallies_block hc hs ?_ rfl)
    exact ((hname.enclose (by decide) (by decide)).append hout).trail (by decide)

/-- Visiting a line with at most one brace that closes nothing. -/
theorem meets_visit_tallies (hpiece : PlainPiece c u ∨ OpeningPiece c u) :
    Yields (TalliesWith c) (visit c s (classify c.grammar u)) := by
  have hcase := writesBraces_cases hc
  have hlanguages := languages_of_writesBraces hc
  have hvisit : visit c s (classify c.grammar u) = ToBrace.visit c s (classify c.grammar u) := by
    rcases hcase with rfl | rfl | rfl <;> rfl
  have hu : Outlined u := hpiece.elim (fun h => h.outlined hlanguages.2) fun h =>
    h.outlined hlanguages.2
  have houtlined : Outlined (classify c.grammar u).line := by rwa [classify_line]
  have hgroups : (classify c.grammar u).kind ∈ bracelessKinds → ∀ k ∈ [1, 2, 3, 4],
      Plain ((classify c.grammar u).group k) :=
    fun hkind k hk => plain_header hc hu.final hkind hk
  have hgeneric := meets_generic_tallies hc hs houtlined
  have habsent : ∀ {kind : LineKind}, (c.grammar.filter fun form => form.kind = kind) = [] →
      kind ≠ .generic → (classify c.grammar u).kind ≠ kind := by
    intro kind hnone hne hkind
    obtain ⟨form, hform, -⟩ := found_of_kind hnone hkind hne
    cases hform
  rw [hvisit]
  cases hkind : (classify c.grammar u).kind <;> simp only [ToBrace.visit, hkind]
  case ifHeader =>
    exact meets_conditionHeader_tallies hc hs (plain_of_filter rfl)
      (hgroups (by rw [hkind]; decide) 1 (by simp))
  case whileHeader =>
    exact meets_conditionHeader_tallies hc hs (plain_of_filter rfl)
      (hgroups (by rw [hkind]; decide) 1 (by simp))
  case elseIfHeader =>
    exact meets_elseIfHeader_tallies hc hs (hgroups (by rw [hkind]; decide) 1 (by simp))
  case elseHeader => exact .ok (tallies_continuedBlock hc hs rfl)
  case finallyHeader => exact .ok (tallies_continuedBlock hc hs rfl)
  case tryHeader => exact .ok (tallies_block hc hs rfl rfl)
  case forHeader => exact meets_forHeader_tallies hc hs houtlined.final
  case returnLine => exact meets_returnLine_tallies hc hs hpiece hkind
  case catchHeader =>
    exact .ok (catchHeader_tallies hc hs (hgroups (by rw [hkind]; decide) 2 (by simp)))
  case openBrace =>
    refine .ok ?_
    unfold ToBrace.openBrace
    split
    · exact .stay hs rfl rfl rfl rfl
    · exact .opened hs hs.names rfl rfl rfl rfl
  case closeBrace =>
    rcases hpiece with h | h
    · exact absurd hkind (h.kind_ne hlanguages.1).2
    · exact absurd hkind (h.kind_ne_of_closed hlanguages.1 _ (by simp))
  case namespaceLine =>
    refine .ok ?_
    unfold ToBrace.namespaceLine
    split
    · exact .stay hs rfl rfl rfl rfl
    · exact .hidden hs hs.names rfl rfl rfl
  case interfaceHeader => exact .ok (.hidden hs hs.names rfl rfl rfl)
  case mainHeader => exact .ok (.hidden hs hs.names rfl rfl rfl)
  case classHeader =>
    exact meets_visitClass_tallies hc hs (hgroups (by rw [hkind]; decide) 1 (by simp))
      (hgroups (by rw [hkind]; decide) 2 (by simp))
  case constructorHeader =>
    exact meets_constructorHeader_tallies hc hs houtlined (hgroups (by rw [hkind]; decide))
  case functionHeader | arrowFunction =>
    have hjava : c = .javascriptToJava := by
      rcases hcase with rfl | rfl | rfl
      · exact absurd hkind (habsent rfl nofun)
      · exact absurd hkind (habsent rfl nofun)
      · rfl
    exact .ok (functionHeader_tallies hc hs hjava (hgroups (by rw [hkind]; decide) 1 (by simp))
      (hgroups (by rw [hkind]; decide) 2 (by simp)))
  case lambda =>
    rcases hcase with rfl | rfl | rfl <;> exact absurd hkind (habsent rfl nofun)
  case methodHeader =>
    exact meets_methodHeader_tallies hc hs houtlined (hgroups (by rw [hkind]; decide))
  case variableLine => exact meets_variableLine_tallies hc hs hpiece hkind
  case propertyLine =>
    rcases hcase with rfl | rfl | rfl
    · -- A property on one line has both braces.
      have hforms :
          Conversion.csharpToJavaScript.grammar.filter (fun form => form.kind = .propertyLine) =
          [Grammar.CSharp.propertyForm] := rfl
      have hneeds : Grammar.CSharp.propertyForm.pattern.needs (· = '}') = true := by decide
      obtain ⟨form, hform, m, hm, -⟩ := found_of_kind hforms hkind (by decide)
      obtain rfl := mem_singleton.mp hform
      obtain ⟨d, hd, hclose⟩ := (of_matchStart hm).1.reads.needs hneeds
      obtain rfl := decide_eq_true_eq.mp hclose
      exact absurd ((of_matchStart hm).1.whole_isInfix.subset hd) hu.final.not_mem
    · exact absurd hkind (habsent rfl nofun)
    · exact absurd hkind (habsent rfl nofun)
  case forEachHeader => exact meets_forEachHeader_tallies hc hs (hgroups (by rw [hkind]; decide))
  case forInHeader =>
    rcases hcase with rfl | rfl | rfl <;> exact absurd hkind (habsent rfl nofun)
  case printLine => exact meets_printLine_tallies hc hs (hgroups (by rw [hkind]; decide))
  case importLine | usingLine | annotationLine | attributeLine =>
    exact .ok (.stay hs rfl rfl rfl rfl)
  all_goals exact hgeneric

end

/-- A closing brace is written for a scope that is. -/
theorem meets_closeBrace_tallies (hs : s.Tallies c) (hne : s.scopes ≠ [])
    (hu : isClosingLine u = true) : Yields (TalliesWith c) (closeBrace c s u) := by
  obtain ⟨glue, rfl, hglue, -⟩ := isClosingLine_parts hu
  have hplain : Plain glue := Block.forall_glue (by decide) hglue
  unfold closeBrace
  refine (meets_true _).remember.bind fun r hr => .ok ?_
  obtain ⟨scope, t⟩ := r
  rcases closeBlock_cases hr.1 with ⟨hnil, -⟩ | ⟨first, rest, hscopes, rfl, rfl⟩
  · exact absurd hnil hne
  refine ⟨⟨s.shown c, hs.braces, ?_⟩, fun name hname => hs.names name ?_⟩
  rotate_left
  · change name ∈ (if c.endsClass first then s.classNames.tail else s.classNames) at hname
    split at hname
    · exact mem_of_mem_tail hname
    · exact hname
  show openAfter (s.shown c)
      (Option.getD (Code.text? (if c.hides first then .nothing else .line ('}' :: glue))) []) =
    some (rest.filter fun scope => !c.hides scope).length
  rw [State.shown, hscopes]
  by_cases hhidden : c.hides first = true
  · rw [if_pos hhidden, filter_cons_of_neg (by rw [hhidden]; exact Bool.false_ne_true)]
    rfl
  · rw [if_neg hhidden, filter_cons_of_pos (by simpa using hhidden), length_cons]
    show openAfter (_ + 1) ('}' :: glue) = _
    rw [openAfter_close, openAfter_of_plain hplain]

/-- Pieces inside a skipped scope write nothing. -/
theorem meets_skipPiece_tallies (hinv : Inv c s) (hs : s.Tallies c)
    (hskip : Scope.skipped ∈ s.scopes) (u : Text) : Yields (State.Tallies c) (skipPiece s u) := by
  have hkeep : ∀ {scopes : List Scope} (awaiting : Bool),
      (scopes.filter fun scope => !c.hides scope) = s.scopes.filter (fun scope => !c.hides scope) →
      State.Tallies c { s with scopes := scopes, awaitingBrace := awaiting } := by
    intro scopes awaiting heq
    refine ⟨?_, hs.names⟩
    rw [State.shown, heq]
    exact hs.braces
  have hhidden : ∀ scopes : List Scope, ((.skipped :: scopes).filter fun scope => !c.hides scope) =
      scopes.filter (fun scope => !c.hides scope) :=
      fun _ => filter_cons_of_neg (by simp [Conversion.hides])
  refine meets_skipPiece hskip (fun awaiting => hkeep awaiting rfl)
    (hkeep s.awaitingBrace (hhidden _))
    fun scope rest hcons => hkeep s.awaitingBrace ?_
  obtain ⟨n, outer, hscopes, -⟩ := hinv.exists_skipped hskip
  obtain ⟨rfl, rfl⟩ := cons.inj (hcons.symm.trans hscopes)
  rw [hcons, hhidden]

/-- A piece keeps the stacks in order. -/
theorem meets_visitPiece_inv (hc : c ∈ writesBraces) (h : Inv c s) (u : Text) :
    Yields (Inv c) (visitPiece c s u) := by
  have hcase := writesBraces_cases hc
  have hlanguages : c.hasLanguages = true ∧ c.style.closesBlocks = true ∧
      c.remembersClasses = true := by
    rcases hcase with rfl | rfl | rfl <;> exact ⟨rfl, rfl, rfl⟩
  refine meets_visitPiece (fun hskip => h.meets_skipPiece hskip) fun hskip awaiting => ?_
  have hbefore : Inv c { s with awaitingBrace := awaiting } := ⟨h.classes, h.skipped⟩
  refine (meets_visit_lineMove hlanguages.1 _ u).imp fun r hr _ => ?_
  have hafter : Inv c r.1 := by
    refine hbefore.leads hskip ?_ hr
    rw [lineMove, if_pos hlanguages.2.1]
    exact fits_move hlanguages.2.2 _ _
  exact ⟨hafter.classes, hafter.skipped⟩

/-- A piece with at most one brace keeps the tally. -/
theorem meets_visitPiece_tallies {n m : Nat} (hc : c ∈ writesBraces) (hinv : Inv c s)
    (hs : s.Tallies c)
    (hadds : Adds c u n m) (hopened : s.Opened n) :
    Yields (State.Tallies c) (visitPiece c s u) := by
  have hlanguages : c.hasLanguages = true ∧ ∀ before l,
      visit c before l = ToBrace.visit c before l := by
    rcases writesBraces_cases hc with rfl | rfl | rfl <;> exact ⟨rfl, fun _ _ => rfl⟩
  refine meets_visitPiece (fun hskip => meets_skipPiece_tallies hinv hs hskip u)
    fun _ awaiting => ?_
  have hbefore : State.Tallies c { s with awaitingBrace := awaiting } := ⟨hs.braces, hs.names⟩
  refine .imp (show Yields (TalliesWith c) _ from ?_) fun r hr depth => hr.emit depth
  cases hadds with
  | plain h => exact meets_visit_tallies hc hbefore (.inl h)
  | opening h => exact meets_visit_tallies hc hbefore (.inr h)
  | closing h =>
    have hne : s.scopes ≠ [] := by
      have hlength : s.scopes.length = m + 1 + if s.awaitingBrace then 1 else 0 := hopened
      intro hnil
      rw [hnil, length_nil] at hlength
      omega
    rw [hlanguages.2, ToBrace.visit, kind_of_isClosingLine hlanguages.1 h]
    simp only [classify_line]
    exact meets_closeBrace_tallies hbefore hne h

end CodeConverter.Brace

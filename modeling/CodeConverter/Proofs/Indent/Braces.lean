import CodeConverter.Proofs.Expression.Ending
import CodeConverter.Proofs.Indent.Balance

/-!
# Braces follow blocks

For a source without braces the open braces of the output are those of the open blocks after every
line, and the converted source is balanced. In PHP a loop over a range announces its block before
its text is known, so there this needs that the text of such a loop is a header.
-/

namespace CodeConverter.Indent

open Text Grammar.Python
open List hiding replace

theorem Plain.filter_eq_nil {text : Text} (h : Plain text) : text.filter isBrace = [] :=
  filter_eq_nil_iff.mpr fun ch hch => by
    rw [h ch hch]
    exact Bool.false_ne_true

variable {comment : Option Text} {line source : Text} {r : State × Code}

/-- The code of a line with its comment has the braces of the code. -/
theorem codeBraces_annotated (h : ∀ text, comment = some text → Plain text) (code : Code) :
    codeBraces (annotated comment code) = codeBraces code := by
  have hgap : "  ".toList.filter isBrace = [] := by decide
  unfold annotated
  split
  · rename_i ch text
    have hnote : ("// ".toList ++ (ch :: text)).filter isBrace = [] := by
      rw [filter_append, (h (ch :: text) rfl).filter_eq_nil]
      rfl
    cases code with
    | nothing => exact hnote
    | line t =>
      show (t ++ "  ".toList ++ ("// ".toList ++ (ch :: text))).filter isBrace = t.filter isBrace
      rw [filter_append, filter_append, hgap, hnote, append_nil, append_nil]
    | lines ts =>
      show (unlines
          (ts.dropLast ++ [ts.getLastD [] ++ "  ".toList ++ ("// ".toList ++ (ch :: text))])).filter
          isBrace = (unlines ts).filter isBrace
      rw [filter_unlines rfl, filter_unlines rfl, flatten_append, flatten_singleton, filter_append,
        filter_append, filter_append, hgap, hnote, append_nil, append_nil]
      rcases eq_nil_or_concat' ts with rfl | ⟨front, last, rfl⟩
      · rfl
      · rw [dropLast_concat, getLastD_concat, flatten_append, flatten_singleton, filter_append]
  · rfl

variable {c : Conversion} {s t : State} {l : Classified} {text : Text} {n : Nat}

theorem openAfter_pop (hline : s.output.back? = some line) (hstrip : strip line = ['}'])
    (h : openAfter 0 s.braces = some n) :
    openAfter 0 { s with output := s.output.pop }.braces = some (n + 1) := by
  have houtput : s.output.toList = s.output.pop.toList ++ [line] := by
    have hlast : s.output.toList.getLast? = some line := by
      rw [← hline]
      exact Array.getLast?_toList _
    rw [Array.toList_pop]
    exact (dropLast_append_getLast? line hlast).symm
  have hbraces : s.braces = { s with output := s.output.pop }.braces ++ ['}'] := by
    rw [State.braces, State.braces, houtput, flatten_append, flatten_singleton, filter_append,
      ← filter_strip line, hstrip]
    rfl
  rw [hbraces, openAfter_append] at h
  obtain ⟨m, hm, hclose⟩ := Option.bind_eq_some_iff.mp h
  cases m with
  | zero => cases hclose
  | succ m =>
    obtain rfl : m = n := Option.some.inj hclose
    exact hm

/-- A continuation takes up the brace that was closed before it. -/
theorem openAfter_mergeContinuation (h : openAfter 0 s.braces = some n) (htext : Balanced text) :
    openAfter 0 ((mergeContinuation s ("\x7d " ++ text ++ " \x7b")).1.braces ++
      codeBraces (.line (mergeContinuation s ("\x7d " ++ text ++ " \x7b")).2)) = some (n + 1) := by
  have hrest : openAfter n ((" " ++ text ++ " \x7b").filter isBrace) = some (n + 1) := by
    rw [openAfter_filter, append_assoc]
    show openAfter n (text ++ " \x7b") = _
    rw [openAfter_append_of (htext.openAfter n)]
    rfl
  unfold mergeContinuation
  split
  · -- The closing brace at the end of the output is taken back.
    rename_i hmerge
    have hback := of_decide_eq_true (Bool.and_eq_true_iff.mp hmerge).2
    obtain ⟨line, hline, hstrip⟩ := Option.map_eq_some_iff.mp hback
    rw [openAfter_append_of (openAfter_pop hline hstrip h)]
    exact hrest
  · -- The continuation starts a line of its own.
    show openAfter 0 (s.braces ++ (stripStart (" " ++ text ++ " \x7b")).filter isBrace) = _
    rw [openAfter_append_of h, filter_stripStart]
    exact hrest

/-- Whether a line that announces its block before its text is known is sure to be a header. -/
def Steady (c : Conversion) (s : State) (l : Classified) : Prop :=
  c = .toPhp → l.kind = .rangeForHeader → s.brackets = 0 ∧
    ∀ known, Meets (fun _ => True) (fun out => endsIn (fun ch => ch = ':') out = true)
    (c.expression known l.line)

theorem written_of_other (hkind : isContinuation l.kind = false) :
    written c comment l r = r.1.emit c r.1.depth (annotated comment r.2) := by
  unfold written merged
  rw [hkind]

/-- A visited line writes the brace of the block it announces, and no other. -/
theorem Outcome.openAfter_written (h : Outcome c Balanced s l r)
    (hsteady : Steady c s l) (hpending : s.pendingScope = none)
    (hcomment : ∀ text, comment = some text → Plain text)
    (hbraces : openAfter 0 s.braces = some n) :
    openAfter 0 (written c comment l r).braces = some (n + r.1.announced) := by
  obtain ⟨after, code⟩ := r
  have houtput : after.braces = s.braces := by
    rw [State.braces, h.frame.output]
    rfl
  have hwritten : isContinuation l.kind = false → ∀ text, codeBraces code = text.filter isBrace →
      openAfter n text = some (n + after.announced) →
      openAfter 0 (written c comment l (after, code)).braces = some (n + after.announced) := by
    intro hkind text hcode htext
    rw [written_of_other hkind, braces_emit, codeBraces_annotated hcomment, houtput,
      openAfter_append_of hbraces, hcode, openAfter_filter]
    exact htext
  have hannounced : ∀ scope, after.pendingScope = some scope → scope ≠ .silent →
      after.announced = 1 := by
    intro scope hscope hne
    rw [State.announced, hscope]
    exact if_pos (decide_eq_true hne)
  cases h.shape with
  | plain hkind hsame hgood =>
    have hzero : after.announced = 0 := by
      rw [State.announced, hsame, hpending]
      rfl
    cases htext : code.text? with
    | none => exact hwritten hkind [] (by rw [codeBraces, htext]; rfl) (by rw [hzero]; rfl)
    | some text =>
      refine hwritten hkind text (by rw [codeBraces, htext]; rfl) ?_
      rw [hzero]
      exact (hgood text htext).openAfter n
  | silent hkind hsilent =>
    refine hwritten hkind [] rfl ?_
    rw [State.announced, hsilent]
    rfl
  | opening hkind hscope hne hcode htext hrest =>
    refine hwritten hkind _ (congrArg (fun text? => (text?.getD []).filter isBrace) hcode) ?_
    rw [hannounced _ hscope hne.1, Option.getD_some, append_assoc,
      openAfter_append_of (htext.openAfter n)]
    exact hrest.openAfter (n + 1)
  | @continued text hkind hblock htext =>
    rw [hannounced _ hblock (by decide)]
    have hmerged := openAfter_mergeContinuation (by rw [houtput]; exact hbraces) htext
    unfold written merged
    rw [hkind, braces_emit, codeBraces_annotated hcomment]
    exact hmerged
  | @loose text hphp hkind hblock hexpression hends =>
    obtain ⟨hbrackets, hcolon⟩ := hsteady hphp hkind
    have hspelled := hcolon after.isKnown
    rw [show c.expression after.isKnown l.line = .ok text from hexpression] at hspelled
    rw [hspelled.of_ok, hbrackets] at hends
    cases hends

/-- A line of code keeps the braces balanced with the open blocks. -/
theorem Braced.meets_codeLine (h : Braced s) (hs : Settling c 0 s) (htext : Plain text)
    (hsteady : Steady c (counted s text) (classified text)) :
    Yields Braced (codeLine c s text) := by
  have hcode : Plain (splitComment text).1 := htext.part (splitComment_fst_isPrefix text).subset
  have hcomment : ∀ note, (splitComment text).2 = some note → Plain note := fun note hnote =>
    htext.part (splitComment_snd_isInfix hnote).subset
  have hbraces := h.braces
  rw [State.announced, hs.pending] at hbraces
  rw [codeLine_eq]
  refine .map (((discipline_plain c).meets_visit (hs.arrives hcode h.names)).imp fun r hr => ?_)
  have hopen := hr.openAfter_written hsteady hs.pending hcomment hbraces
  obtain ⟨output, heq⟩ := written_eq c (splitComment text).2 (classified text) r
  have hdepth : r.1.depth = s.depth := by
    rw [State.depth, hr.frame.scopes]
    rfl
  rw [heq] at hopen ⊢
  refine ⟨?_, fun name hname => ?_⟩
  · rw [hopen]
    show some (s.depth + r.1.announced) = some (r.1.depth + r.1.announced)
    rw [hdepth]
  · rcases hr.classNames name hname with hold | hnew
    · exact h.names name hold
    · exact hnew

theorem Braced.emit (h : Braced s) (depth : Nat) (htext : Plain text) :
    Braced (s.emit c depth (.line text)) := by
  refine ⟨?_, h.names⟩
  rw [braces_emit, show codeBraces (.line text) = text.filter isBrace from rfl, htext.filter_eq_nil,
    append_nil]
  exact h.braces

theorem Braced.push_nil (h : Braced s) : Braced { s with output := s.output.push [] } := by
  refine ⟨?_, h.names⟩
  rw [State.braces, Array.toList_push, flatten_append, flatten_singleton, append_nil]
  exact h.braces

/-- A line of a block comment has no braces if the source has none, and changes the comment only. -/
theorem meets_commentLine_plain (s : State) (htext : Plain text) :
    Yields (fun r => (∃ inComment delimiter,
      r.1 = { s with inComment := inComment, commentDelimiter := delimiter }) ∧ Plain r.2)
      (commentLine s text) := by
  have hreplace : ∀ delimiter, AddsOnly isOrdinary (replace delimiter " */" text) text := by
    intro delimiter
    by_cases hnil : delimiter = []
    · rw [hnil, replace, splitOnText, join_singleton]
      exact .rfl
    · exact addsOnly_replace text ⟨hnil, by decide⟩
  have hdrop : ∀ part : Text, part ⊆ text.drop 3 → AddsOnly isOrdinary (strip part) text :=
    fun part hpart =>
    .of_subset
      (Subset.trans (strip_isInfix part).subset (Subset.trans hpart (drop_suffix 3 text).subset))
  have hclosing : Plain "*/" := plain_of_all rfl
  unfold commentLine
  refine .either ?_ ?_
  · cases s.commentDelimiter with
    | none => exact .error trivial
    | some delimiter =>
      refine .either (.either (.ok ?_) (.ok ?_)) (.ok ?_)
      · exact ⟨⟨_, _, rfl⟩, hclosing⟩
      · exact ⟨⟨_, _, rfl⟩, htext.addsOnly (hreplace delimiter)⟩
      · exact ⟨⟨_, _, rfl⟩, htext⟩
  · refine .either (.ok ⟨⟨_, _, rfl⟩, htext.addsOnly ?_⟩) (.ok ⟨⟨_, _, rfl⟩, htext.addsOnly ?_⟩)
    · have hparts : (cutLast (text.take 3) (text.drop 3)).1 ⊆ text.drop 3 ∧
          (cutLast (text.take 3) (text.drop 3)).2 ⊆ text.drop 3 := by
        unfold cutLast
        split
        · exact ⟨take_subset _ _, drop_subset _ _⟩
        · exact ⟨nil_subset _, Subset.refl _⟩
      refine ((hdrop _ hparts.1).enclose rfl rfl).append ?_
      exact .of_subset (Subset.trans hparts.2 (drop_suffix 3 text).subset)
    · refine (AddsOnly.of_subset (stripEnd_isPrefix _).subset).trans ?_
      exact AddsOnly.append (.fixed rfl) (hdrop _ (Subset.refl _))

theorem Braced.meets_writeComment (h : Braced s) (htext : Plain text) :
    Yields Braced (writeComment c s text) := by
  refine (meets_commentLine_plain s htext).bind fun r ⟨⟨inComment, delimiter, heq⟩, hplain⟩ =>
    .ok ?_
  have hsame : Braced { s with inComment := inComment, commentDelimiter := delimiter } :=
    ⟨h.braces, h.names⟩
  rw [heq]
  exact hsame.emit _ hplain

theorem Braced.meets_continuationLine (h : Braced s) (htext : Plain text) :
    Yields Braced (continuationLine c s text) := by
  unfold continuationLine
  refine (c.meets_expression_addsOnly _ text).bind fun out hout => .ok ?_
  have hplain := htext.addsOnly hout
  have hsame : Braced { s with brackets := max (s.brackets + bracketBalance text) 0 } :=
    ⟨h.braces, h.names⟩
  refine hsame.emit _ ?_
  split
  · unfold State.terminate
    split
    · exact hplain
    · exact htext.addsOnly (hout.append (.fixed rfl))
  · exact hplain

/-- Every line of a source without braces keeps the braces of the open blocks. -/
theorem Braced.meets_visitLine (h : Braced s) (hs : Inv c s) (hline : Plain line)
    (hsteady : isPassive s line = false → startsComment (strip line) = false →
      ∀ t, Steady c (counted t (strip line)) (classified (strip line))) :
      Yields Braced (visitLine c s line) := by
  have hcontent : Braced { s with hasContent := true } := ⟨h.braces, h.names⟩
  have hinv := hs.content
  have hstrip : Plain (strip line) := hline.part (strip_isInfix line).subset
  have hsettled : Yields (fun t => Settling c 0 t ∧ Braced t) (settleBlocks c _ (width line)) :=
    (hinv.meets_settleBlocks (width line)).and (hcontent.meets_settleBlocks hinv (width line))
  rcases visitLine_cases c s line with
    ⟨-, heq⟩ | ⟨-, heq⟩ | ⟨-, heq⟩ | ⟨-, heq⟩ | ⟨-, -, -, heq⟩ | ⟨-, hactive, hcode, heq⟩ <;>
    rw [heq]
  · exact .ok h.push_nil
  · exact hcontent.meets_writeComment hstrip
  · exact hcontent.meets_continuationLine hstrip
  · refine .ok (hcontent.emit _ (hstrip.addsOnly ?_))
    refine (AddsOnly.of_subset (stripEnd_isPrefix _).subset).trans (AddsOnly.append (.fixed rfl) ?_)
    exact .of_subset ((strip_isInfix _).trans (drop_suffix 1 _).isInfix).subset
  · exact hsettled.bind fun t ht => ht.2.meets_writeComment hstrip
  · exact hsettled.bind fun t ht => ht.2.meets_codeLine ht.1 hstrip (hsteady hactive hcode t)

/-- A line of a source that is classified as code, in the state it is met in. -/
structure MetAsCode (c : Conversion) (source : Text) (s : State) (line : Text) : Prop where
  run : ∃ before after, lines source = before ++ line :: after ∧ (machine c).run before = .ok s
  active : isPassive s line = false
  code : startsComment (strip line) = false

theorem eq_of_endsWith_colon {p : Pattern} {ch : Char}
    (h : (p ++ ":" ++ Pattern.atEnd).endsWith ch = true) : ch = ':' := by
  have hsplit : (p ++ ":" ++ Pattern.atEnd).endsWith ch =
      (false || (true && (decide ([':'].getLast? = some ch) || (false && p.endsWith ch)))) := rfl
  rw [hsplit] at h
  exact (by simpa using h : ':' = ch).symm

theorem endsIn_of_rangeFor {text : Text} {m : Match} (hbreak : '\n' ∉ text)
    (hm : rangeForForm.pattern.matchStart text = some m) :
    endsIn (fun ch => ch = ':') text = true := by
  obtain ⟨hof, -⟩ := Pattern.of_matchStart hm
  have hwhole : m.whole = text := (Pattern.whole_eq_of_anchored hm rfl hbreak).1
  have hne : text ≠ [] := by
    rw [← hwhole]
    exact hof.reads.ne_nil rfl
  obtain ⟨front, last, rfl⟩ := (eq_nil_or_concat' text).resolve_left hne
  have hends : rangeForForm.pattern.endsWith last = true := by
    refine hof.reads.endsWith ?_
    rw [hwhole, getLast?_concat]
  rw [endsIn_concat, eq_of_endsWith_colon hends]
  rfl

theorem steady_classified {text : Text} (hbreak : '\n' ∉ text)
    (h : (classified text).kind = .rangeForHeader →
      bracketBalance (classified text).line = 0 ∧ '\x00' ∉ (classified text).line) (t : State) :
    Steady .toPhp (counted t text) (classified text) := by
  intro _ hkind
  obtain ⟨hbalance, hnull⟩ := h hkind
  have hline : (classified text).line = (splitComment text).1 := classify_line _ _
  obtain ⟨form, hmem, hform, m, hm, -⟩ := exists_form_of_kind hkind nofun
  have honly : all.filter (fun form => form.kind = .rangeForHeader) =
      [rangeForForm] := rfl
  have hrange : form ∈ [rangeForForm] := by
    rw [← honly]
    exact mem_filter.mpr ⟨hmem, decide_eq_true hform⟩
  rw [hline] at hbalance
  refine ⟨?_, fun known => Expression.ToPhp.meets_ofPython_colon hnull ?_⟩
  · show max (bracketBalance (splitComment text).1) 0 = 0
    rw [hbalance]
    rfl
  · rw [hline]
    rw [mem_singleton.mp hrange] at hm
    exact endsIn_of_rangeFor (fun hmem => hbreak ((splitComment_fst_isPrefix text).subset hmem)) hm

/-- The lines of a source that opens a block for every loop over a range in PHP. -/
def SteadyLines (c : Conversion) (source : Text) : Prop :=
  c = .toPhp → ∀ s line, MetAsCode c source s line →
    (classified (strip line)).kind = .rangeForHeader →
    bracketBalance (classified (strip line)).line = 0 ∧ '\x00' ∉ (classified (strip line)).line

/-- After any lines of a source without braces, the open braces are those of the open blocks. -/
theorem meets_run_braced (hplain : Plain source) (hsteady : SteadyLines c source)
    {before : List Text}
    (hbefore : before <+: lines source) :
    Yields (fun s => Inv c s ∧ Braced s) ((machine c).run before) := by
  induction before using reverseRecOn with
  | nil => exact .ok ⟨.initial c, rfl, nofun⟩
  | append_singleton before line ih =>
    obtain ⟨after, hlines⟩ := hbefore
    rw [append_assoc] at hlines
    have hline : line ∈ lines source := by
      rw [← hlines]
      exact mem_append_right _ mem_cons_self
    have hbreak : '\n' ∉ strip line :=
      fun hmem => not_mem_of_mem_splitOn hline ((strip_isInfix line).subset hmem)
    have hin : line <:+: source := infix_of_mem_splitOn hline
    rw [LineMachine.run_concat]
    refine ((ih ⟨_, hlines⟩).remember).bind fun s ⟨heq, hs⟩ => ?_
    have hvisited := hs.2.meets_visitLine hs.1 (hplain.part hin.subset) fun hactive hcode t => ?_
    · exact ((hs.1.meets_visitLine (discipline_all c) trivial).and hvisited)
    · by_cases hphp : c = .toPhp
      · subst hphp
        refine steady_classified hbreak
          (hsteady rfl s line ⟨⟨before, after, hlines.symm, heq⟩, hactive, hcode⟩) t
      · exact fun hc => absurd hc hphp

/-- At the end of the source every brace is closed. -/
theorem Braced.meets_finish (h : Braced s) (hs : Inv c s) :
    Yields (fun t => Balanced (unlines t.output.toList)) (finish c s) := by
  have hbehind : Behind c s.closed s := fun _ hclosed => absurd hclosed (Nat.lt_irrefl _)
  have hempty : ∀ scope, s.pendingScope = some scope →
      Yields (fun t => Settling c s.closed t ∧ Braced t) (s.closeEmpty c) := fun scope hscope =>
    (hs.meets_closeEmpty hbehind (by simp [hscope])).and h.meets_closeEmpty
  refine Indent.meets_finish hempty (fun hnone => ⟨⟨hs, hbehind, hnone⟩, h⟩) fun t ht => ?_
  refine ((ht.1.meets_closeAll _ (Nat.le_succ _)).and (ht.2.meets_closeAll _ ht.1)).imp
    fun u hu => ?_
  obtain ⟨⟨hu, hone⟩, hclosed⟩ := hu
  have hzero : openAfter 0 u.braces = some 0 := by
    obtain ⟨scope, hscopes⟩ := length_eq_one_iff.mp (hu.blocks.scopes.trans hone)
    rw [hclosed.braces, State.announced, hu.pending, State.depth, hscopes]
    rfl
  have hbalanced : Balanced u.output.toList.flatten := by
    unfold Text.Balanced
    rw [← openAfter_filter]
    exact hzero
  unfold Text.Balanced
  refine ⟨?_, fun _ => ?_⟩
  · rw [openAfter_unlines]
    exact hbalanced
  · rw [openAfter_unlines, Array.toList_append, Array.toList_append, flatten_append, flatten_append,
      append_assoc]
    show openAfter 0 (u.output.toList.flatten ++ "?>") = some 0
    rw [openAfter_append_of hbalanced]
    rfl

/-- For a source without braces the open braces of the output are those of the open blocks and of an
announced one after every line, and the converted source is balanced. -/
theorem braces_of_convert {source : Text} (hplain : Plain source) (hsteady : SteadyLines c source) :
    (∀ before s, before <+: lines source → (machine c).run before = .ok s →
      (unlines s.output.toList).count '{' = (unlines s.output.toList).count '}' +
      (s.depth + s.announced)) ∧ ∀ out, (machine c).convert source = .ok out → Balanced out := by
  refine ⟨fun before s hbefore heq => ?_, fun out heq => ?_⟩
  · have hrun := meets_run_braced hplain hsteady hbefore
    rw [heq] at hrun
    have hbraces := hrun.of_ok.2.braces
    rw [State.braces, openAfter_filter, ← openAfter_unlines] at hbraces
    have hcount := count_of_openAfter hbraces
    omega
  · have hconvert : Yields Balanced ((machine c).convert source) :=
      LineMachine.meets_convert (meets_run_braced hplain hsteady prefix_rfl) fun s hs =>
        hs.2.meets_finish hs.1
    rw [heq] at hconvert
    exact hconvert.of_ok

/-- A loop over a range in PHP. -/
theorem braces_of_convert_range :
    ∃ out, (machine .toPhp).convert "for i in range(3):\n  f(i)" = .ok out ∧ out.count '{' = 1 ∧
    Balanced out := by
  have hout : (machine .toPhp).convert "for i in range(3):\n  f(i)" =
      .ok "<?php\nfor ($i = 0; $i < 3; $i++) \x7b\n    f($i);\n\x7d\n?>" := by decide +kernel
  have hlines : ∀ line ∈ lines "for i in range(3):\n  f(i)",
      bracketBalance (classified (strip line)).line = 0 ∧
      '\x00' ∉ (classified (strip line)).line := by decide +kernel
  have hsteady : SteadyLines .toPhp "for i in range(3):\n  f(i)" := by
    intro _ s line hmet _
    obtain ⟨before, after, heq, -⟩ := hmet.run
    exact hlines line (by rw [heq]; exact mem_append_right _ mem_cons_self)
  exact ⟨_, hout, by decide, (braces_of_convert (plain_of_all rfl) hsteady).2 _ hout⟩

/-- A null character and a digit pass for the token of a literal. The colon of a loop over a range
can be lost in this way, and with it the brace of a block that is closed all the same. -/
theorem not_balanced_of_null :
    ∃ source out : Text, Plain source ∧
    (∀ line ∈ lines source, bracketBalance (classified (strip line)).line = 0) ∧
      (machine .toPhp).convert source = .ok out ∧ ¬ Balanced out := by
  refine ⟨"for i in range(a,b,c,d)\x000'):\n  x",
    "<?php\nfor $i in range(a,b,c,d)'):0\x00;\n    x;\n\x7d\n?>",
    plain_of_all rfl, ?_, by decide +kernel, by decide⟩
  decide +kernel

end CodeConverter.Indent

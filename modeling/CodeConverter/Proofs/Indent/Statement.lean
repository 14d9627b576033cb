import CodeConverter.Proofs.Indent.Outcome

/-!
# Statements and control structures of an indented source

One lemma for each kind of line says that its visit has an outcome.
-/

namespace CodeConverter.Indent

open Text List

variable {t name start declaration : Text}

/-- A line that is about to be visited. -/
structure Arrives (c : Conversion) (fails : Fault → Prop) (fine good : Text → Prop) (s : State)
    (l : Classified) : Prop where
  pending : s.pendingScope = none
  line : fine l.line
  groups : ∀ k, l.group k <:+: l.line
  scope : Meets fails (fun _ => True) (innermost s.scopes)
  declare : ∀ name, Meets fails (fun _ => True) (s.declare name)
  className : c = .toJava → s.scopes.head? = some .classBody →
    Meets fails (fun _ => True) (innermost s.classNames)
  classNames : ∀ name ∈ s.classNames, good name

variable {c : Conversion} {fails : Fault → Prop} {fine spelled good : Text → Prop} {s : State}
    {l : Classified}

theorem tightStep_subset (step : Text) : Loop.tightStep step ⊆ step := by
  simp only [Loop.tightStep]
  split
  · exact filter_sublist.subset
  · exact Subset.refl _

namespace Discipline

variable (h : Discipline c fails fine spelled good)

include h

theorem good_subset {u : Text} (ht : spelled t) (hu : u ⊆ t) : good u :=
  h.of_spelled u (h.subset t u ht hu)

/-- A counting loop may be written. -/
theorem good_loopHeader {stop step : Text} (hname : good name) (hstart : good start)
    (hstop : good stop) (hstep : spelled step) (hdeclaration : good declaration) :
    good (Loop.loopHeader name start stop step declaration) := by
  have htight := h.subset _ _ hstep (tightStep_subset step)
  have hstarted : good ("(" ++ declaration ++ name ++ " = " ++ start) :=
    h.spliced (h.both (h.prefixed hdeclaration rfl) hname) hstart rfl
  have hfront : good ("(" ++ declaration ++ name ++ " = " ++ start ++ "; " ++ name) :=
    h.spliced hstarted hname rfl
  have hwhole : ∀ comparison update : Text, good comparison → good update →
      good ("(" ++ declaration ++ name ++ " = " ++ start ++ "; " ++ name ++ comparison ++
      stop ++ "; " ++ update ++ ")") := fun comparison update hcomparison hupdate =>
    h.suffixed (h.spliced (h.both (h.both hfront hcomparison) hstop) hupdate rfl) rfl
  simp only [Loop.loopHeader]
  split
  · rename_i amount heq
    rw [heq] at htight
    have hamount : good (strip amount) :=
      h.good_subset htight (Subset.trans (strip_isInfix amount).subset (subset_cons_self _ _))
    refine hwhole _ _ (h.fixed rfl) ?_
    split
    · exact h.suffixed hname rfl
    · exact h.spliced hname hamount rfl
  · refine hwhole _ _ (h.fixed rfl) ?_
    split
    · exact h.suffixed hname rfl
    · exact h.spliced hname (h.of_spelled _ htight) rfl

theorem good_countingLoop {loop : Text} {arguments : List Text} (hname : good name)
    (harguments : ∀ a ∈ arguments, spelled a) (hdeclaration : good declaration)
    (hloop : Loop.countingLoop name arguments declaration = some loop) : good loop := by
  have hone : spelled "1" := h.plain _ rfl
  simp only [Loop.countingLoop] at hloop
  split at hloop
  · obtain rfl := Option.some.inj hloop
    exact h.good_loopHeader hname (h.fixed rfl) (h.of_spelled _ (harguments _ (by simp))) hone
      hdeclaration
  · obtain rfl := Option.some.inj hloop
    exact h.good_loopHeader hname (h.of_spelled _ (harguments _ (by simp)))
      (h.of_spelled _ (harguments _ (by simp))) hone hdeclaration
  · obtain rfl := Option.some.inj hloop
    exact h.good_loopHeader hname (h.of_spelled _ (harguments _ (by simp)))
      (h.of_spelled _ (harguments _ (by simp))) (harguments _ (by simp)) hdeclaration
  · cases hloop

theorem spelled_arguments {arguments a : Text} (harguments : spelled arguments)
    (hmem : a ∈ splitArguments arguments) : spelled a :=
  h.subset _ _ harguments (infix_of_mem_splitArguments hmem).subset

variable (ha : Arrives c fails fine good s l)

include ha

theorem group (t : State) (k : Nat) : Meets fails spelled (t.expression c (l.group k)) :=
  h.respell t ha.line (ha.groups k)

theorem good_group (k : Nat) : good (l.group k) :=
  h.good_part ha.line (ha.groups k)

variable (hkind : isContinuation l.kind = false)

include hkind

theorem meets_otherwise : Meets fails (Outcome c good s l) (generic c s l.line) :=
  h.meets_generic ha.pending hkind ha.line

theorem outcome_decoratorLine : Outcome c good s l (decoratorLine s l) := by
  simp only [decoratorLine]
  split
  · have hquiet : Quiet s { s with decorators := s.decorators ++ [l.group 1] } :=
      ⟨⟨rfl, rfl, rfl, rfl, rfl, rfl, rfl, rfl, rfl⟩, rfl, rfl, rfl, fun _ hi => hi⟩
    exact .of_quiet hquiet (.stay ha.pending hkind fun t ht => by cases ht)
  · exact .line ha.pending hkind (h.prefixed (h.of_fine _ ha.line) rfl)

theorem meets_conditionHeader (hstart : start.all notBrace = true) :
    Meets fails (Outcome c good s l) (conditionHeader c s l start) := by
  refine (h.meets_condition s ha.line (ha.groups 1)).bind fun out hout => .ok ?_
  exact .header hkind (by decide) (fun _ => rfl) (h.prefixed hout hstart) h.nil

omit hkind in
theorem meets_elifHeader (hkind : isContinuation l.kind = true) :
    Meets fails (Outcome c good s l) (conditionHeader c s l "\x7d else if ") := by
  refine (h.meets_condition s ha.line (ha.groups 1)).bind fun out hout => .ok ?_
  have htext : good ("else if " ++ out) := h.prefixed hout rfl
  exact .continued hkind htext

omit hkind in
/-- The visit of a loop over a range for PHP, whose block is announced before its text is known. -/
theorem meets_phpRange (hc : c = .toPhp) (hkind : l.kind = .rangeForHeader) :
    Meets fails (Outcome c good s l) (rangeForHeader c s l) := by
  have hother : isContinuation l.kind = false := by rw [hkind]; rfl
  have hframe : Frame s (s.announce .block [l.group 1]) :=
    ⟨rfl, rfl, rfl, rfl, rfl, rfl, rfl, rfl, rfl⟩
  have hnot : c ≠ .toJava := by
    rw [hc]
    decide
  have hdeclaration : good c.loopDeclaration := by
    rw [hc]
    exact h.nil
  have hname : good ("$" ++ l.group 1) := h.prefixed (h.good_group ha 1) rfl
  simp only [rangeForHeader, if_pos hc]
  refine (h.group ha _ 2).bind fun arguments harguments => ?_
  split
  · simp only [generic]
    refine (h.respell _ ha.line infix_rfl).remember.bind fun text htext => ?_
    refine .ite (fun _ => .ok ?_) fun hends =>
      .ok ⟨hframe, fun _ hname => .inl hname, fun hjava => absurd hjava hnot, ?_⟩
    · refine ⟨⟨rfl, rfl, rfl, rfl, rfl, rfl, rfl, rfl, rfl⟩, fun _ hname => .inl hname, fun hjava =>
        absurd hjava hnot, ?_⟩
      refine .opening hother rfl (by decide) (by rw [append_nil]; rfl)
        (h.good_subset htext.2 ?_) h.nil
      exact ((stripEnd_isPrefix _).isInfix.trans (dropLast_isInfix _)).subset
    · exact .loose hc hkind rfl htext.1 (Bool.eq_false_iff.mpr hends)
  · rename_i loop hloop
    have hgood : good loop :=
      h.good_countingLoop hname (fun a hmem => h.spelled_arguments harguments hmem)
        hdeclaration hloop
    refine .ok ⟨hframe, fun _ hname => .inl hname, fun hjava => absurd hjava hnot, ?_⟩
    exact .opening hother rfl (by decide) (by rw [append_nil]; rfl)
      (h.prefixed hgood (by decide)) h.nil

omit hkind in
theorem meets_rangeForHeader (hkind : l.kind = .rangeForHeader) :
    Meets fails (Outcome c good s l) (rangeForHeader c s l) := by
  have hother : isContinuation l.kind = false := by rw [hkind]; rfl
  by_cases hc : c = .toPhp
  · exact h.meets_phpRange ha hc hkind
  · have hdeclaration : good c.loopDeclaration := by
      cases c
      case toPhp => exact absurd rfl hc
      all_goals exact h.fixed rfl
    simp only [rangeForHeader, if_neg hc]
    refine (h.group ha s 2).bind fun arguments harguments => ?_
    split
    · exact h.meets_otherwise ha hother
    · rename_i loop hloop
      have hgood : good loop := h.good_countingLoop (h.good_group ha 1)
        (fun a hmem => h.spelled_arguments harguments hmem) hdeclaration hloop
      exact .ok (.header hother (by decide) (fun _ => rfl) (h.prefixed hgood (by decide)) h.nil)

omit hkind in
theorem good_loopTargets (k : Nat) : ∀ t ∈ loopTargets (l.group k), good t := by
  intro t ht
  obtain ⟨piece, hpiece, rfl⟩ := mem_map.mp ht
  refine h.good_part ha.line (((strip_isInfix piece).trans (infix_of_mem_splitOn hpiece)).trans ?_)
  exact ((dropEndWhile_isPrefix _ _).isInfix.trans (dropWhile_suffix _).isInfix).trans (ha.groups k)

omit hkind in
theorem good_firstTarget (k : Nat) : good ((loopTargets (l.group k)).headD []) := by
  have htargets := h.good_loopTargets ha k
  cases hlist : loopTargets (l.group k) with
  | nil => exact h.nil
  | cons t ts =>
    rw [hlist] at htargets
    exact htargets t mem_cons_self

end Discipline

theorem Quiet.rfl {s : State} : Quiet s s := ⟨.rfl, Eq.refl _, Eq.refl _, Eq.refl _, fun _ hi => hi⟩

theorem returnLine_eq (c : Conversion) (s : State) (hvalue : l.group 1 ≠ []) :
    ∃ t, Quiet s t ∧ returnLine c s l = (t.expression c (l.group 1) >>= fun out =>
      pure (t, .line (t.terminate ("return " ++ out)))) := by
  obtain ⟨first, rest, hgroup⟩ := exists_cons_of_ne_nil hvalue
  by_cases hjava : c = .toJava
  · subst hjava
    cases huntyped : s.untyped with
    | nil => exact ⟨s, .rfl, by simp only [returnLine, hgroup, huntyped]⟩
    | cons entry entries =>
      refine ⟨{ s with untyped := none :: entries },
        ?_, by simp only [returnLine, hgroup, huntyped]⟩
      refine ⟨⟨.refl _, .refl _, .refl _, .refl _, .refl _, .refl _, .refl _, .refl _, .refl _⟩,
        Eq.refl _, .refl _, by rw [huntyped]; exact .refl _, fun i hi => ?_⟩
      rw [huntyped]
      rcases mem_cons.mp hi with hi | hi
      · cases hi
      · exact mem_cons_of_mem _ hi
  · refine ⟨s, .rfl, ?_⟩
    cases c
    case toJava => exact absurd (.refl _) hjava
    all_goals simp only [returnLine, hgroup]

theorem matchStart_group_isInfix {p : Pattern} {m : Match} (h : p.matchStart t = some m) (k : Nat) :
    m.group k <:+: t := by
  have hof := (Pattern.of_matchStart h).1
  exact (hof.group_isInfix k).trans hof.whole_isInfix

namespace Discipline

variable (h : Discipline c fails fine spelled good)

include h

variable (ha : Arrives c fails fine good s l) (hkind : isContinuation l.kind = false)

include ha hkind

omit hkind in
theorem meets_javascriptIterable (k : Nat) :
    Meets fails good (javascriptIterable c s (l.group k)) := by
  simp only [javascriptIterable]
  split
  · rename_i m hm
    have hgroup := fun j => (matchStart_group_isInfix hm j).trans (ha.groups k)
    refine (h.respell s ha.line (hgroup 1)).bind fun out hout => .ok ?_
    refine h.suffixed (h.both (h.surround ?_ rfl rfl) (h.of_spelled out hout)) rfl
    split
    · exact h.fixed rfl
    · exact h.good_part ha.line (hgroup 2)
  · split
    · rename_i m hm
      refine (h.respell s ha.line ((matchStart_group_isInfix hm 1).trans (ha.groups k))).bind
        fun out hout => ?_
      exact .ok (h.suffixed (h.of_spelled out hout) rfl)
    · exact (h.group ha s k).imp fun out hout => h.of_spelled out hout

theorem meets_javascriptFor : Meets fails (Outcome c good s l) (javascriptFor c s l) := by
  have htargets := h.good_loopTargets ha 1
  refine (h.meets_javascriptIterable ha 2).bind fun iterable hiterable => .ok ?_
  refine .header hkind (by decide) (fun _ => rfl) ?_ h.nil
  refine h.suffixed (h.both (h.surround ?_ rfl rfl) hiterable) rfl
  split
  · rename_i name hname
    exact htargets name (by rw [hname]; exact mem_cons_self)
  · exact h.surround (h.join (h.fixed rfl) htargets) rfl rfl

omit h ha in
theorem outcome_opening {code : Code} {text rest : Text} {names : List Text}
    (hcode : code.text? = some (text ++ " \x7b" ++ rest)) (htext : good text) (hrest : good rest) :
    Outcome c good s l (s.announce .block names, code) :=
  ⟨⟨rfl, rfl, rfl, rfl, rfl, rfl, rfl, rfl, rfl⟩, fun _ hname => .inl hname,
    fun _ => ⟨rfl, rfl, fun _ hi => .inl hi⟩, .opening hkind rfl (by decide) hcode htext hrest⟩

/-- The visit of a loop over a collection for Java. -/
theorem meets_javaFor : Meets fails (Outcome c good s l) (javaFor c s l) := by
  have htargets := h.good_loopTargets ha 1
  simp only [javaFor]
  split
  · rename_i m key value hm hlist
    rw [hlist] at htargets
    have hline : ∀ name (tail : Text), good name → tail.all notBrace = true →
        good (replicate c.indentSize ' ' ++ "Object " ++ name ++ tail) :=
        fun name tail hname htail => by
      have hindent : good (replicate c.indentSize ' ') :=
        h.fixed (all_eq_true.mpr fun x hx => by rw [eq_of_mem_replicate hx]; decide)
      exact h.suffixed (h.spliced hindent hname (by decide)) htail
    refine (h.respell s ha.line ((matchStart_group_isInfix hm 1).trans (ha.groups 2))).bind
      fun entries hentries => ?_
    have hfirst : good ("for (Map.Entry<Object, Object> entry : ".toList ++ entries ++
        ".entrySet())".toList) :=
      h.surround (h.of_spelled _ hentries) (by decide) (by decide)
    have hrest := h.spliced (a := ['\n']) (h.prefixed (a := ['\n'])
      (hline key " = entry.getKey();" (htargets key (by simp)) (by decide)) (by decide))
      (hline value " = entry.getValue();" (htargets value (by simp)) (by decide)) (by decide)
    refine .ok (outcome_opening hkind ?_ hfirst hrest)
    simp only [Code.text?, unlines, join_cons_cons, join_singleton,
      show ".entrySet()) \x7b".toList = ".entrySet())".toList ++ " \x7b".toList from rfl,
          append_assoc]
  · refine (h.group ha s 2).bind fun iterable hiterable => .ok ?_
    refine .header hkind (by decide) (fun _ => rfl) ?_ h.nil
    exact h.suffixed
      (h.both (h.surround (h.good_firstTarget ha 1) (by decide) (by decide))
      (h.of_spelled _ hiterable)) (by decide)

/-- The visit of a loop over a collection for PHP. -/
theorem meets_phpFor : Meets fails (Outcome c good s l) (phpFor c s l) := by
  have htargets := h.good_loopTargets ha 1
  have hbrace : ") \x7b".toList = ")".toList ++ " \x7b".toList := rfl
  have hforeach : ∀ {items : Text}, spelled items →
      good ("foreach (".toList ++ items ++ " as $".toList) :=
    fun hitems => h.surround (h.of_spelled _ hitems) (by decide) (by decide)
  simp only [phpFor]
  split
  · rename_i m key value hm hlist
    rw [hlist] at htargets
    refine (h.respell _ ha.line ((matchStart_group_isInfix hm 1).trans (ha.groups 2))).bind
      fun items hitems => ?_
    have hgood := h.suffixed (a := ")") (h.spliced (a := " => $")
      (h.both (hforeach hitems) (htargets key (by simp))) (htargets value (by simp)) (by decide))
      (by decide)
    refine .ok (outcome_opening hkind ?_ hgood h.nil)
    simp only [Code.text?, hbrace, append_nil, append_assoc]
  · refine (h.group ha _ 2).bind fun items hitems => ?_
    have hgood := h.suffixed (a := ")") (h.both (hforeach hitems) (h.good_firstTarget ha 1))
      (by decide)
    refine .ok (outcome_opening hkind ?_ hgood h.nil)
    simp only [Code.text?, hbrace, append_nil, append_assoc]

theorem meets_forHeader : Meets fails (Outcome c good s l) (forHeader c s l) := by
  cases c
  case plain => exact h.meets_otherwise ha hkind
  case toJava => exact h.meets_javaFor ha hkind
  case toPhp => exact h.meets_phpFor ha hkind
  all_goals exact h.meets_javascriptFor ha hkind

/-- The visit of a `return` statement. -/
theorem meets_returnLine : Meets fails (Outcome c good s l) (returnLine c s l) := by
  by_cases hnil : l.group 1 = []
  · simp only [returnLine, hnil]
    exact .ok (.line ha.pending hkind (h.fixed rfl))
  · obtain ⟨t, hquiet, heq⟩ := returnLine_eq c s hnil
    rw [heq]
    refine (h.group ha t 1).bind fun out hout => .ok (.of_quiet hquiet ?_)
    refine .line (hquiet.pendingScope.trans ha.pending) hkind (h.terminate ?_)
    exact h.prefixed (h.of_spelled out hout) rfl

omit hkind in
theorem outcome_exceptHeader (hkind : isContinuation l.kind = true) :
    Outcome c good s l (exceptHeader c s l) := by
  have hname : good (if (l.group 2).isEmpty then ("e" : Text) else l.group 2) := by
    split
    · exact h.fixed rfl
    · exact h.good_group ha 2
  have htext : ∀ typed : Text, good typed → good ("catch (" ++ typed ++ ")") :=
    fun typed htyped => h.surround htyped rfl rfl
  cases c
  case toJava => exact .continued hkind (htext _ (h.prefixed hname rfl))
  case toPhp => exact .continued hkind (htext _ (h.prefixed hname rfl))
  all_goals exact .continued hkind (htext _ hname)

/-- The visit of a `raise` statement. -/
theorem meets_raiseLine : Meets fails (Outcome c good s l) (raiseLine c s l) := by
  have hraised := h.expression s.isKnown _ (h.raised _ (h.part _ _ ha.line (ha.groups 1)))
  simp only [raiseLine]
  split
  · refine .ok (.line ha.pending hkind ?_)
    split <;> exact h.fixed rfl
  · refine hraised.bind fun out hout => .ok (.line ha.pending hkind (h.terminate ?_))
    exact h.prefixed (h.of_spelled out hout) rfl

omit hkind in
theorem meets_printArguments (k : Nat) :
    Meets fails (fun arguments => ∀ a ∈ arguments, good a) (printArguments c s (l.group k)) := by
  refine .mapM fun a hmem => ?_
  have hpart := (infix_of_mem_splitArguments (mem_filter.mp hmem).1).trans (ha.groups k)
  exact (h.respell s ha.line hpart).imp fun out hout => h.of_spelled out hout

theorem meets_printLine : Meets fails (Outcome c good s l) (printLine c s l) := by
  have harguments := h.meets_printArguments ha 1
  have hjoin : ∀ sep : Text, sep.all notBrace = true → ∀ arguments : List Text,
      (∀ a ∈ arguments, good a) →
      good (.join sep arguments) := fun sep hsep arguments hall => h.join (h.fixed hsep) hall
  cases c
  case plain => exact h.meets_otherwise ha hkind
  case toJava =>
    refine harguments.bind fun arguments hall => .ok (.line ha.pending hkind ?_)
    exact h.surround (hjoin _ rfl arguments hall) rfl rfl
  case toPhp =>
    refine harguments.bind fun arguments hall => ?_
    split
    · exact .ok (.line ha.pending hkind (h.fixed rfl))
    · exact .ok (.line ha.pending hkind (h.surround (hjoin _ rfl _ hall) rfl rfl))
  all_goals
    refine harguments.bind fun arguments hall => .ok (.line ha.pending hkind (h.terminate ?_))
    exact h.surround (hjoin _ rfl arguments hall) rfl rfl

end Discipline

end CodeConverter.Indent

import CodeConverter.Proofs.Expression.Total
import CodeConverter.Proofs.Indent.Declaration
import CodeConverter.Proofs.Indent.Stack

/-!
# Conversions of indented sources never fail

Every line keeps the stacks in step, so that no entry is ever missing from one of them, and every
expression can be respelled. A source whose lines have no null character and not too many quotes and
braces is therefore converted to some text.
-/

namespace CodeConverter.Indent

open Text Literal List

variable {c : Conversion} {fails : Fault → Prop} {s : State} {l : Classified} {t : Text}

theorem discipline_moderate (c : Conversion) (fails : Fault → Prop) :
    Discipline c fails Moderate (fun _ => True) (fun _ => True) where
  expression := fun known _ ht => c.meets_expression known ht
  part := fun _ _ ht hu => ht.lighter (.of_isInfix hu)
  raised := fun t ht => by
    refine ht.lighter ?_
    cases c
    all_goals exact lighter_replaceBy fun m _ => .of_light rfl m.whole
  subset := fun _ _ _ _ => trivial
  of_fine := fun _ _ => trivial
  of_spelled := fun _ _ => trivial
  append := fun _ _ _ _ => trivial
  plain := fun _ _ => trivial
  empty := trivial
  type := fun _ _ => trivial
  collection := fun _ _ => trivial

/-- A line of code arrives once the blocks are settled. -/
theorem Settling.arrives {fine good : Text → Prop} (h : Settling c 0 s)
    (ht : fine (splitComment t).1)
    (hnames : ∀ name ∈ s.classNames, good name) :
    Arrives c fails fine good (counted s t) (classified t) where
  pending := h.pending
  line := by
    rw [classified, classify_line]
    exact ht
  groups := fun k => by
    rw [classified, classify_line]
    exact classify_group_isInfix _ _ k
  scope := (meets_innermost h.blocks.scopes_ne_nil).imp fun _ _ => trivial
  declare := fun name => by
    obtain ⟨inner, outer, hnames⟩ : ∃ inner outer, s.names = inner :: outer := by
      refine exists_cons_of_ne_nil fun hnil => h.blocks.module (length_eq_zero_iff.mp ?_)
      rw [← h.blocks.names, hnil]
      rfl
    simp only [State.declare, counted, hnames]
    exact .either (.ok trivial) (.ok trivial)
  className := fun hjava hhead => by
    refine (meets_innermost fun hnil => ?_).imp fun _ _ => trivial
    have hnames : s.classNames = [] := hnil
    have hclasses := h.memory.classes hjava
    rw [h.pending, hnames] at hclasses
    have hcount : s.scopes.count .classBody = 0 := by simpa using hclasses.symm
    exact count_eq_zero.mp hcount (mem_of_mem_head? (Option.mem_def.mpr hhead))
  classNames := hnames

theorem size_emit_annotated {comment : Option Text} {text : Text} (size depth : Nat)
    (output : Array Text) :
    output.size < (CodeConverter.emit size depth (annotated comment (.line text)) output).size := by
  simp only [annotated]
  split
  · exact size_emit_line size depth _ output
  · exact size_emit_line size depth text output

/-- Folding a closing brace into a continuation removes at most the last line of the output, and
only if the line at hand closed a block. -/
theorem mergeContinuation_fst (s : State) (t : Text) :
    (mergeContinuation s t).1 = s ∨
    (0 < s.closed ∧ (mergeContinuation s t).1 = { s with output := s.output.pop }) := by
  simp only [mergeContinuation]
  split
  · rename_i hcond
    exact .inr ⟨by simpa using (Bool.and_eq_true_iff.mp hcond).1, rfl⟩
  · split <;> exact .inl rfl

/-- Writing a visited line keeps the stacks in step. -/
theorem Settling.written (h : Settling c 0 s) {r : State × Code}
    (hr : Outcome c (fun _ => True) s l r)
    (comment : Option Text) : Inv c (written c comment l r) := by
  obtain ⟨after, code⟩ := r
  have hframe : Frame s after := hr.frame
  have hstacks : Stacks after :=
    ⟨by rw [hframe.scopes, hframe.widths]; exact h.blocks.scopes,
      by rw [hframe.names, hframe.widths]; exact h.blocks.names,
      by rw [hframe.widths]; exact h.blocks.module,
      by rw [hframe.inComment, hframe.commentDelimiter]; exact h.blocks.delimiter⟩
  have hold := h.memory
  rw [h.pending] at hold
  have hclasses : c = .toJava → after.classNames.length =
      after.scopes.count .classBody + if after.pendingScope = some .classBody then 1 else 0 :=
      fun hjava => by
    rw [(hr.memory hjava).classes, hold.classes hjava, hframe.scopes]
    rfl
  have hfunctions : c = .toJava → after.untyped.length =
      after.scopes.count .function + if after.pendingScope = some .function then 1 else 0 :=
      fun hjava => by
    rw [(hr.memory hjava).functions, hold.functions hjava, hframe.scopes]
    rfl
  -- A header noted for this line is not one that continues a block, so nothing is folded away.
  have hplaces : c = .toJava → ∀ i, some i ∈ after.untyped →
      i < (Indent.written c comment l (after, code)).output.size := by
    intro hjava i hi
    rcases (hr.memory hjava).places i hi with hmem | ⟨rfl, hkind, text, rfl⟩
    · refine Nat.lt_of_lt_of_le ?_ (size_le_emit _ _ _ _)
      have hplace := hold.places hjava i hmem
      simp only [merged]
      split
      · rcases mergeContinuation_fst after _ with heq | ⟨hclosed, heq⟩
        · rw [heq, hframe.output]
          exact hplace
        · rw [hframe.closed] at hclosed
          have hbehind := h.behind hjava hclosed i hmem
          rw [heq]
          show i < (after.output.pop).size
          rw [hframe.output, Array.size_pop]
          omega
      · rw [hframe.output]
        exact hplace
    · have hmerged : merged l (after, .line text) = (after, .line text) := by
        simp only [merged, hkind]
      simp only [Indent.written, hmerged]
      rw [← hframe.output]
      exact size_emit_annotated _ _ _
  have hsame : ∀ t : State, (t = after ∨ t = { after with output := after.output.pop }) →
    ∀ output : Array Text,
      (c = .toJava → ∀ i, some i ∈ after.untyped → i < output.size) →
      Inv c { t with output := output } := by
    rintro t (rfl | rfl) output houtput <;>
      exact ⟨⟨hstacks.scopes, hstacks.names, hstacks.module, hstacks.delimiter⟩, hclasses,
        hfunctions, houtput⟩
  refine hsame _ ?_ _ hplaces
  simp only [merged]
  split
  · rcases mergeContinuation_fst after _ with heq | ⟨-, heq⟩
    · exact .inl heq
    · exact .inr heq
  · exact .inl rfl

theorem Inv.grow (h : Inv c s) {output : Array Text} (hsize : s.output.size ≤ output.size) :
    Inv c { s with output := output } :=
  ⟨⟨h.blocks.scopes, h.blocks.names, h.blocks.module, h.blocks.delimiter⟩,
    ⟨h.memory.classes, h.memory.functions, fun hjava i hi =>
    Nat.lt_of_lt_of_le (h.memory.places hjava i hi) hsize⟩⟩

theorem Inv.emit (h : Inv c s) (depth : Nat) (code : Code) : Inv c (s.emit c depth code) :=
  h.grow (size_le_emit _ _ _ _)

/-- A comment keeps the invariant. -/
theorem Inv.meets_writeComment (h : Inv c s) (t : Text) :
    Meets fails (Inv c) (writeComment c s t) := by
  simp only [writeComment]
  have hline : Meets fails (fun r => Inv c r.1) (commentLine s t) := by
    simp only [commentLine]
    refine .ite (fun hcomment => ?_) fun _ => ?_
    · obtain ⟨delimiter, hdelimiter⟩ := Option.ne_none_iff_exists'.mp (h.blocks.delimiter hcomment)
      have hended : Inv c { s with inComment := false } :=
        ⟨⟨h.blocks.scopes, h.blocks.names, h.blocks.module, fun hfalse => by cases hfalse⟩,
          h.memory.classes, h.memory.functions, h.memory.places⟩
      rw [hdelimiter]
      refine .either (.either (.ok ?_) (.ok ?_)) (.ok h)
      · rw [hdelimiter] at hended
        exact hended
      · rw [hdelimiter] at hended
        exact hended
    · refine .either (.ok h) (.ok ?_)
      exact ⟨⟨h.blocks.scopes, h.blocks.names, h.blocks.module, fun _ => Option.some_ne_none _⟩,
        h.memory.classes, h.memory.functions, h.memory.places⟩
  exact hline.bind fun r hr => .ok (hr.emit _ _)

section

variable {fine : Text → Prop} (hd : Discipline c fails fine (fun _ => True) (fun _ => True))

include hd

theorem Inv.meets_continuationLine (h : Inv c s) (ht : fine t) :
    Meets fails (Inv c) (continuationLine c s t) := by
  simp only [continuationLine]
  refine (hd.expression _ t ht).bind fun text _ => .ok (.emit ?_ _ _)
  exact h.flags s.hasContent _ s.closed

theorem Settling.meets_codeLine (h : Settling c 0 s) (ht : fine t) :
    Meets fails (Inv c) (codeLine c s t) := by
  have hcounted : Settling c 0 (counted s t) :=
    ⟨h.toInv.flags s.hasContent _ s.closed, h.behind, h.pending⟩
  have hcode := hd.part _ _ ht (splitComment_fst_isPrefix t).isInfix
  rw [codeLine_eq]
  exact .map ((hd.meets_visit (h.arrives hcode fun _ _ => trivial)).imp fun r hr =>
    hcounted.written hr _)

theorem Inv.meets_visitLine (h : Inv c s) {line : Text} (hline : fine (strip line)) :
    Meets fails (Inv c) (visitLine c s line) := by
  have hcontent := h.content
  rcases visitLine_cases c s line with ⟨-, heq⟩ | ⟨-, heq⟩ | ⟨-, heq⟩ | ⟨-, heq⟩ | ⟨-, -, -,
    heq⟩ | ⟨-, -, -, heq⟩ <;> rw [heq]
  · exact .ok (h.grow (by simp))
  · exact hcontent.meets_writeComment _
  · exact hcontent.meets_continuationLine hd hline
  · exact .ok (hcontent.emit _ _)
  · exact (hcontent.meets_settleBlocks _).bind fun t ht => ht.meets_writeComment _
  · exact (hcontent.meets_settleBlocks _).bind fun t ht => ht.meets_codeLine hd hline

end

/-- The end of the source closes all blocks. -/
theorem Inv.meets_finish (h : Inv c s) :
    Meets fails (fun t => Settling c s.closed t ∧ t.widths.length = 1) (finish c s) := by
  have hbehind : Behind c s.closed s := fun _ hclosed => absurd hclosed (Nat.lt_irrefl _)
  refine Indent.meets_finish (fun scope hscope => h.meets_closeEmpty hbehind (by simp [hscope]))
    (fun hnone => ⟨h, hbehind, hnone⟩) fun t ht => ?_
  refine (ht.meets_closeAll _ (Nat.le_succ _)).imp fun u hu => ⟨hu, fun hphp => ?_⟩
  refine ⟨⟨hu.1.toInv.grow ?_, fun hjava => ?_, hu.1.pending⟩, hu.2⟩
  · simp only [Array.size_append]
    omega
  · rw [hphp] at hjava
    cases hjava

theorem exists_convert_eq_ok {source : Text} (h : ∀ line ∈ lines source, Moderate (strip line)) :
    ∃ out, (machine c).convert source = .ok out := by
  have hrun : Meets (fun _ => False) (Inv c) ((machine c).run (lines source)) :=
    LineMachine.meets_run (.initial c) fun s line hmem hs =>
      hs.meets_visitLine (discipline_moderate c _) (h line hmem)
  have hconvert : Meets (fun _ => False) (fun _ => True) ((machine c).convert source) :=
    LineMachine.meets_convert hrun fun s hs => hs.meets_finish.imp fun _ _ => trivial
  obtain ⟨out, hout, -⟩ := hconvert.exists_ok
  exact ⟨out, hout⟩

end CodeConverter.Indent

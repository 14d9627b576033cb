import CodeConverter.Proofs.Indent.Closing
import CodeConverter.Proofs.Indent.Total

/-!
# The nesting of an indented source

The open blocks lie in one another. Their widths grow strictly from the module, which has width
zero, and there is only one module. A line that is blank, a comment, or part of an open block
comment or bracket leaves the blocks alone. Every other line first closes some of the innermost
blocks or opens the announced one, which is wider than all of them. At the end of the source only
the module is left.
-/

namespace CodeConverter.Indent

open Text List

variable {α : Type} {l l' : List α} {inner width : Nat}

/-- The open blocks of two states are the same, and so is the announced one. -/
structure SameNesting (s t : State) : Prop where
  widths : t.widths = s.widths
  scopes : t.scopes = s.scopes
  names : t.names = s.names
  pendingScope : t.pendingScope = s.pendingScope

/-- The blocks of a state lie in one another, the module around all of them. -/
structure Nested (s : State) : Prop where
  widths : s.widths.Pairwise (· > ·)
  outermost : s.widths.getLast? = some 0
  module : s.scopes.getLast? = some .module
  inner : .module ∉ s.scopes.dropLast
  pending : s.pendingScope ≠ some .module
  brackets : 0 ≤ s.brackets

/-- The open blocks of a state are the outer ones of another. -/
structure Outer (s t : State) : Prop where
  widths : t.widths <:+ s.widths
  scopes : t.scopes <:+ s.scopes
  pendingScope : t.pendingScope = s.pendingScope
  brackets : t.brackets = s.brackets

/-- What Java may change when a block is left: names of classes are forgotten, and the header of a
function gets its result type. -/
structure Left (s t : State) : Prop where
  same : SameNesting s t
  brackets : t.brackets = s.brackets
  names : t.classNames ⊆ s.classNames
  output : t.output = s.output ∨ ∃ i line, s.output[i]? = some line ∧
    t.output = s.output.setIfInBounds i (replaceFirst " Object " " void " line)

variable {c : Conversion} {s t u : State}

theorem Left.rfl : Left s s :=
  ⟨⟨Eq.refl _, Eq.refl _, Eq.refl _, Eq.refl _⟩, Eq.refl _, Subset.refl _, .inl (Eq.refl _)⟩

theorem Closes.outer {k : Nat} (h : Closes k s t) : Outer s t := by
  obtain ⟨_, _, _, _, _, rfl⟩ := h
  exact ⟨drop_suffix k _, drop_suffix k _, .refl _, .refl _⟩

theorem getLast?_of_suffix (h : l' <:+ l) (hne : l' ≠ []) : l'.getLast? = l.getLast? := by
  obtain ⟨front, rfl⟩ := h
  rw [getLast?_append_of_ne_nil _ hne]

theorem mem_dropLast_of_suffix {a : α} (h : l' <:+ l) (ha : a ∈ l'.dropLast) : a ∈ l.dropLast := by
  obtain ⟨front, rfl⟩ := h
  have hne : l' ≠ [] := by
    intro hnil
    rw [hnil] at ha
    cases ha
  rw [dropLast_append_of_ne_nil hne]
  exact mem_append_right _ ha

theorem Nested.outer (h : Nested s) (ht : Stacks t) (houter : Outer s t) : Nested t where
  widths := h.widths.sublist houter.widths.sublist
  outermost := (getLast?_of_suffix houter.widths ht.module).trans h.outermost
  module := (getLast?_of_suffix houter.scopes ht.scopes_ne_nil).trans h.module
  inner := fun hmem => h.inner (mem_dropLast_of_suffix houter.scopes hmem)
  pending := by
    rw [houter.pendingScope]
    exact h.pending
  brackets := by
    rw [houter.brackets]
    exact h.brackets

theorem Nested.initial : Nested State.initial where
  widths := pairwise_singleton _ _
  outermost := rfl
  module := rfl
  inner := not_mem_nil
  pending := by decide
  brackets := Int.le_refl 0

/-- What leaving a scope may change. -/
theorem meets_leave_left (c : Conversion) (s : State) (scope : Scope) :
    Yields (Left s) (s.leave c scope) := by
  unfold State.leave
  refine .either ?_ (.ok .rfl)
  cases scope
  case classBody =>
    cases hnames : s.classNames with
    | nil => exact .error trivial
    | cons name names =>
      exact .ok ⟨⟨rfl, rfl, rfl, rfl⟩, rfl, by rw [hnames]; exact subset_cons_self _ _, .inl rfl⟩
  case function =>
    show Meets _ _ s.settleResult
    unfold State.settleResult
    split
    · exact .error trivial
    · exact .ok ⟨⟨rfl, rfl, rfl, rfl⟩, rfl, Subset.refl _, .inl rfl⟩
    · split
      · exact .error trivial
      · rename_i index _ _ _ line hline
        exact .ok ⟨⟨rfl, rfl, rfl, rfl⟩, rfl, Subset.refl _, .inr ⟨index, line, hline, rfl⟩⟩
  all_goals exact .ok .rfl

section

variable (h : Nested s)

include h

theorem Nested.le_innermost (hinner : s.widths.head? = some inner)
    (hwidth : width ∈ s.widths) : width ≤ inner := by
  have hordered := h.widths
  cases hwidths : s.widths with
  | nil =>
    rw [hwidths] at hwidth
    cases hwidth
  | cons first rest =>
    rw [hwidths] at hordered hinner hwidth
    obtain rfl : first = inner := Option.some.inj hinner
    rcases mem_cons.mp hwidth with rfl | hmem
    · exact Nat.le_refl _
    · exact Nat.le_of_lt ((pairwise_cons.mp hordered).1 _ hmem)

/-- A wider line opens a block inside of the innermost one. -/
theorem Nested.push (hs : Stacks s) (hinner : s.widths.head? = some inner)
    (hwidth : inner < width) : Nested (s.push width) where
  widths := by
    refine pairwise_cons.mpr ⟨fun w hw => ?_, h.widths⟩
    have hle := h.le_innermost hinner hw
    omega
  outermost := (getLast?_of_suffix (suffix_cons _ _) hs.module).symm.trans h.outermost
  module := (getLast?_of_suffix (suffix_cons _ _) hs.scopes_ne_nil).symm.trans h.module
  inner := by
    intro hmem
    have hcons : (s.push width).scopes.dropLast = s.pendingScope.getD .block :: s.scopes.dropLast :=
      dropLast_cons_of_ne_nil hs.scopes_ne_nil
    rw [hcons] at hmem
    rcases mem_cons.mp hmem with hnew | hold
    · cases hpending : s.pendingScope with
      | none =>
        rw [hpending] at hnew
        cases hnew
      | some scope =>
        rw [hpending] at hnew
        exact h.pending (by rw [hpending, hnew]; rfl)
    · exact h.inner hold
  pending := by
    intro hpending
    cases hpending
  brackets := h.brackets

theorem Nested.flags (hasContent : Bool) (closed : Nat) :
    Nested { s with hasContent := hasContent, closed := closed } :=
  ⟨h.widths, h.outermost, h.module, h.inner, h.pending, h.brackets⟩

theorem Nested.cleared : Nested { s with pendingScope := none } :=
  ⟨h.widths, h.outermost, h.module, h.inner, Option.some_ne_none _ |>.symm, h.brackets⟩

/-- Opening or closing blocks for a line. -/
theorem Nested.meets_settleBlocks (hs : Inv c s) (width : Nat) :
    Yields (fun t => Settling c 0 t ∧ Nested t) (settleBlocks c s width) := by
  have hstart : Nested { s with closed := 0 } := h.flags s.hasContent 0
  refine ((hs.meets_settleBlocks width).and (meets_settleBlocks_closes c s width)).imp fun t ht =>
    ⟨ht.1, ?_⟩
  obtain ⟨hsettling, ⟨-, ⟨inner, hinner, hwider⟩, rfl⟩ | ⟨k, hcloses⟩⟩ := ht
  · exact hstart.push (hs.flags s.hasContent s.brackets 0).blocks hinner hwider
  · exact h.cleared.outer hsettling.blocks hcloses.outer

end

theorem discipline_all (c : Conversion) :
    Discipline c (fun _ => True) (fun _ => True) (fun _ => True) (fun _ => True) where
  __ := discipline_moderate c fun _ => True
  expression := fun known t _ => by
    cases c.expression known t with
    | error fault => exact .error trivial
    | ok out => exact .ok trivial
  part := fun _ _ _ _ => trivial
  raised := fun _ _ => trivial
  of_fine := fun _ _ => trivial
  type := fun _ _ => trivial

theorem Outcome.pendingScope_ne_module {good : Text → Prop} {l : Classified} {r : State × Code}
    (h : Outcome c good s l r) (hpending : s.pendingScope = none) :
    r.1.pendingScope ≠ some .module := by
  obtain ⟨after, code⟩ := r
  intro hmodule
  have hmodule : after.pendingScope = some .module := hmodule
  cases h.shape with
  | plain _ hsame =>
    rw [hsame, hpending] at hmodule
    cases hmodule
  | silent _ hsilent =>
    rw [hsilent] at hmodule
    cases hmodule
  | opening _ hscope hne =>
    rw [hscope] at hmodule
    exact hne.2 (Option.some.inj hmodule)
  | continued _ hblock | loose _ _ hblock =>
    rw [hblock] at hmodule
    cases hmodule

theorem written_eq (c : Conversion) (comment : Option Text) (l : Classified) (r : State × Code) :
    ∃ output, written c comment l r = { r.1 with output := output } := by
  obtain ⟨after, code⟩ := r
  unfold written merged
  split
  · rename_i text _ _
    rcases mergeContinuation_fst after text with heq | ⟨-, heq⟩ <;> rw [heq] <;> exact ⟨_, rfl⟩
  · exact ⟨_, rfl⟩

/-- A line of code keeps the blocks nested. -/
theorem Nested.meets_codeLine (h : Nested s) (hs : Settling c 0 s) (text : Text) :
    Yields Nested (codeLine c s text) := by
  rw [codeLine_eq]
  refine .map
    (((discipline_all c).meets_visit (hs.arrives trivial fun _ _ => trivial)).imp fun r hr => ?_)
  obtain ⟨output, heq⟩ := written_eq c (splitComment text).2 (classified text) r
  have hframe : Frame (counted s text) r.1 := hr.frame
  have hwidths : r.1.widths = s.widths := hframe.widths
  have hscopes : r.1.scopes = s.scopes := hframe.scopes
  rw [heq]
  refine ⟨?_, ?_, ?_, ?_, hr.pendingScope_ne_module hs.pending, ?_⟩
  · show r.1.widths.Pairwise _
    rw [hwidths]
    exact h.widths
  · show r.1.widths.getLast? = _
    rw [hwidths]
    exact h.outermost
  · show r.1.scopes.getLast? = _
    rw [hscopes]
    exact h.module
  · show _ ∉ r.1.scopes.dropLast
    rw [hscopes]
    exact h.inner
  · show 0 ≤ r.1.brackets
    rw [hframe.brackets]
    exact Int.le_max_right _ _

/-- The state with its output, its flags and the open comment and brackets changed at most. -/
def Passes (s t : State) : Prop :=
  ∃ output hasContent inComment delimiter brackets, t = { s with
    output := output, hasContent := hasContent, inComment := inComment,
    commentDelimiter := delimiter, brackets := brackets }

theorem Passes.of_content {hasContent : Bool} (h : Passes { s with hasContent := hasContent } t) :
    Passes s t := by
  obtain ⟨_, _, _, _, _, rfl⟩ := h
  exact ⟨_, _, _, _, _, rfl⟩

theorem Passes.same (h : Passes s t) : SameNesting s t := by
  obtain ⟨_, _, _, _, _, rfl⟩ := h
  exact ⟨rfl, rfl, rfl, rfl⟩

theorem meets_writeComment_passes (c : Conversion) (s : State) (text : Text) :
    Yields (fun t => Passes s t ∧ t.brackets = s.brackets) (writeComment c s text) := by
  refine (meets_commentLine s text).bind fun r hr => .ok ?_
  obtain ⟨_, _, heq⟩ := hr
  rw [heq]
  exact ⟨⟨_, _, _, _, _, rfl⟩, rfl⟩

theorem meets_continuationLine_passes (c : Conversion) (s : State) (text : Text) :
    Yields (fun t => Passes s t ∧ 0 ≤ t.brackets) (continuationLine c s text) := by
  unfold continuationLine
  refine ((discipline_all c).expression _ text trivial).bind fun out _ => .ok ?_
  exact ⟨⟨_, _, _, _, _, rfl⟩, Int.le_max_right _ _⟩

theorem Nested.same (h : Nested s) (hsame : SameNesting s t) (hbrackets : 0 ≤ t.brackets) :
    Nested t where
  widths := by
    rw [hsame.widths]
    exact h.widths
  outermost := by
    rw [hsame.widths]
    exact h.outermost
  module := by
    rw [hsame.scopes]
    exact h.module
  inner := by
    rw [hsame.scopes]
    exact h.inner
  pending := by
    rw [hsame.pendingScope]
    exact h.pending
  brackets := hbrackets

theorem Nested.emit (h : Nested s) (depth : Nat) (code : Code) : Nested (s.emit c depth code) :=
  h.same ⟨rfl, rfl, rfl, rfl⟩ h.brackets

theorem meets_visitLine_passive (c : Conversion) {line : Text} (h : isPassive s line = true) :
    Yields (Passes s) (visitLine c s line) := by
  rcases visitLine_cases c s line with
    ⟨-, heq⟩ | ⟨-, heq⟩ | ⟨-, heq⟩ | ⟨-, heq⟩ | ⟨-, hactive, -⟩ | ⟨-, hactive, -⟩
  · rw [heq]
    exact .ok ⟨_, _, _, _, _, rfl⟩
  · rw [heq]
    exact (meets_writeComment_passes c _ _).imp fun t ht => ht.1.of_content
  · rw [heq]
    exact (meets_continuationLine_passes c _ _).imp fun t ht => ht.1.of_content
  · rw [heq]
    exact .ok ⟨_, _, _, _, _, rfl⟩
  all_goals
    rw [hactive] at h
    cases h

theorem Nested.meets_visitLine (h : Nested s) (hs : Inv c s) (line : Text) :
    Yields Nested (visitLine c s line) := by
  have hcontent : Nested { s with hasContent := true } := h.flags true s.closed
  have hinv := hs.content
  have hcomment : ∀ t : State, Nested t → Yields Nested (writeComment c t (strip line)) :=
    fun t ht =>
    (meets_writeComment_passes c t _).imp fun u hu =>
      ht.same hu.1.same (by rw [hu.2]; exact ht.brackets)
  rcases visitLine_cases c s line with
    ⟨-, heq⟩ | ⟨-, heq⟩ | ⟨-, heq⟩ | ⟨-, heq⟩ | ⟨-, -, -, heq⟩ | ⟨-, -, -, heq⟩ <;> rw [heq]
  · exact .ok (h.same ⟨rfl, rfl, rfl, rfl⟩ h.brackets)
  · exact hcomment _ hcontent
  · exact (meets_continuationLine_passes c _ _).imp fun t ht => hcontent.same ht.1.same ht.2
  · exact .ok (hcontent.emit _ _)
  · exact (hcontent.meets_settleBlocks hinv _).bind fun t ht => hcomment t ht.2
  · exact (hcontent.meets_settleBlocks hinv _).bind fun t ht => ht.2.meets_codeLine ht.1 _

theorem meets_run_nested (c : Conversion) (lines : List Text) :
    Yields (fun s => Inv c s ∧ Nested s) ((machine c).run lines) :=
  LineMachine.meets_run ⟨.initial c, .initial⟩ fun _ line _ hs =>
    (hs.1.meets_visitLine (discipline_all c) trivial).and (hs.2.meets_visitLine hs.1 line)

/-- Only the module is left at the end of the source. -/
structure Ended (c : Conversion) (s : State) : Prop where
  widths : s.widths = [0]
  scopes : s.scopes = [.module]
  pendingScope : s.pendingScope = none
  classNames : c = .toJava → s.classNames = []
  untyped : c = .toJava → s.untyped = []

/-- The end of the source leaves only the module. -/
theorem Nested.exists_finish (h : Nested s) (hs : Inv c s) : ∃ t, finish c s = .ok t ∧
    Ended c t := by
  have hmeets : Meets (fun _ => False) (fun _ => True ∧ _) (finish c s) :=
    (hs.meets_finish.and (meets_finish_closes c s)).imp fun _ ht => ⟨trivial, ht⟩
  obtain ⟨t, heq, -, ⟨hsettling, hone⟩, k, hcloses⟩ := hmeets.exists_ok
  have hnested := h.cleared.outer hsettling.blocks hcloses.outer
  obtain ⟨width, hwidths⟩ := length_eq_one_iff.mp hone
  obtain ⟨scope, hscopes⟩ := length_eq_one_iff.mp (hsettling.blocks.scopes.trans hone)
  have hzero : width = 0 := by
    have hlast := hnested.outermost
    rw [hwidths] at hlast
    exact Option.some.inj hlast
  have hmodule : scope = .module := by
    have hlast := hnested.module
    rw [hscopes] at hlast
    exact Option.some.inj hlast
  subst hzero hmodule
  have hmemory := hsettling.memory
  rw [hsettling.pending] at hmemory
  refine ⟨t, heq, hwidths, hscopes, hsettling.pending, fun hjava => ?_, fun hjava => ?_⟩
  · have hclasses := hmemory.classes hjava
    rw [hscopes] at hclasses
    exact length_eq_zero_iff.mp hclasses
  · have hfunctions := hmemory.functions hjava
    rw [hscopes] at hfunctions
    exact length_eq_zero_iff.mp hfunctions

/-- After any lines that were visited without failure the stacks are in step and the blocks nested,
a passive line leaves them alone, and the end of the source closes all of them. -/
theorem blocks_of_run {lines : List Text} (h : (machine c).run lines = .ok s) : Inv c s ∧ Nested s ∧
      (∀ line t, isPassive s line = true → visitLine c s line = .ok t → SameNesting s t) ∧
      ∃ t, finish c s = .ok t ∧ Ended c t := by
  have hrun := meets_run_nested c lines
  rw [h] at hrun
  obtain ⟨hinv, hnested⟩ := hrun.of_ok
  refine ⟨hinv, hnested, fun line t hpassive heq => ?_, hnested.exists_finish hinv⟩
  have hline := meets_visitLine_passive c hpassive
  rw [heq] at hline
  exact hline.of_ok.same

/-- A method is announced in the body of a class. -/
theorem blocks_of_run_method :
    ∃ s, (machine .toJava).run ["class A:", "  def f(self):", "# note"] = .ok s ∧
      s.widths = [2, 0] ∧ s.scopes = [.classBody, .module] ∧ s.pendingScope = some .function ∧
      Inv .toJava s ∧ Nested s ∧ ∃ t, finish .toJava s = .ok t ∧ Ended .toJava t := by
  obtain ⟨s, hrun, hwidths, hscopes, hpending⟩ :
      ∃ s, (machine .toJava).run ["class A:", "  def f(self):", "# note"] = .ok s ∧
        s.widths = [2, 0] ∧ s.scopes = [.classBody, .module] ∧ s.pendingScope = some .function :=
    ⟨_, rfl, rfl, rfl, rfl⟩
  obtain ⟨hinv, hnested, -, hended⟩ := blocks_of_run hrun
  exact ⟨s, hrun, hwidths, hscopes, hpending, hinv, hnested, hended⟩

end CodeConverter.Indent

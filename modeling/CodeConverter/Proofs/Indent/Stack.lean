import CodeConverter.Proofs.Indent.Line
import CodeConverter.Proofs.Text.Part

/-!
# The stacks of an indented source

The widths, kinds and names of the open blocks are kept in step, and the module is never closed. In
Java every open or announced class has its name remembered and every open or announced function the
place of its header, which is a line of the output. So closing blocks never fails.
-/

namespace CodeConverter.Indent

open Text List

variable {scope : Scope}

/-- The stacks of open blocks are in step, and an open block comment has an end. -/
structure Stacks (s : State) : Prop where
  scopes : s.scopes.length = s.widths.length
  names : s.names.length = s.widths.length
  module : s.widths ≠ []
  delimiter : s.inComment = true → s.commentDelimiter ≠ none

/-- Java remembers one entry for every class and function among the open blocks and one more. -/
structure Memory (c : Conversion) (extra : Option Scope) (s : State) : Prop where
  classes : c = .toJava → s.classNames.length =
    s.scopes.count .classBody + if extra = some .classBody then 1 else 0
  functions : c = .toJava → s.untyped.length =
    s.scopes.count .function + if extra = some .function then 1 else 0
  places : c = .toJava → ∀ i, some i ∈ s.untyped → i < s.output.size

/-- If a brace was closed since there were `n` of them, the last line of the output is no header. -/
def Behind (c : Conversion) (n : Nat) (s : State) : Prop :=
  c = .toJava → n < s.closed → ∀ i, some i ∈ s.untyped → i + 1 < s.output.size

/-- What holds between lines. -/
structure Inv (c : Conversion) (s : State) : Prop where
  blocks : Stacks s
  memory : Memory c s.pendingScope s

/-- What holds while blocks are closed, `n` braces having been closed before. -/
structure Settling (c : Conversion) (n : Nat) (s : State) : Prop extends Inv c s where
  behind : Behind c n s
  pending : s.pendingScope = none

theorem size_emit_line (size depth : Nat) (text : Text) (output : Array Text) :
    output.size < (CodeConverter.emit size depth (.line text) output).size := by
  obtain ⟨first, rest, hlines, -, -⟩ := splitOn_eq_cons '\n' text
  have hne : 0 < (indentLines size depth text).length := by
    simp [indentLines, lines, hlines]
  simp only [CodeConverter.emit, Code.text?, Array.size_append, size_toArray]
  omega

theorem size_le_emit (size depth : Nat) (code : Code) (output : Array Text) :
    output.size ≤ (CodeConverter.emit size depth code output).size := by
  simp only [CodeConverter.emit]
  split
  · exact Nat.le_refl _
  · rw [Array.size_append]
    exact Nat.le_add_right _ _

variable {c : Conversion} {fails : Fault → Prop} {n : Nat} {s : State}

theorem Inv.initial (c : Conversion) : Inv c State.initial :=
  ⟨⟨rfl, rfl, cons_ne_nil _ _, fun h => by cases h⟩,
    ⟨fun _ => rfl, fun _ => rfl, fun _ _ hi => absurd hi not_mem_nil⟩⟩

theorem Inv.flags (h : Inv c s) (hasContent : Bool) (brackets : Int) (closed : Nat) :
    Inv c { s with hasContent := hasContent, brackets := brackets, closed := closed } :=
  ⟨⟨h.blocks.scopes, h.blocks.names, h.blocks.module, h.blocks.delimiter⟩,
    ⟨h.memory.classes, h.memory.functions, h.memory.places⟩⟩

theorem Inv.content (h : Inv c s) : Inv c { s with hasContent := true } :=
  h.flags true s.brackets s.closed

theorem Stacks.scopes_ne_nil (h : Stacks s) : s.scopes ≠ [] := by
  intro hnil
  have hlength := h.scopes
  rw [hnil] at hlength
  exact h.module (length_eq_zero_iff.mp hlength.symm)

/-- The parts of the state that leaving a block does not change. -/
structure SameBlocks (s t : State) : Prop where
  widths : t.widths = s.widths
  scopes : t.scopes = s.scopes
  names : t.names = s.names
  pendingScope : t.pendingScope = s.pendingScope
  inComment : t.inComment = s.inComment
  commentDelimiter : t.commentDelimiter = s.commentDelimiter
  closed : t.closed = s.closed

theorem Stacks.same {t : State} (h : Stacks s) (ht : SameBlocks s t) : Stacks t :=
  ⟨by rw [ht.scopes, ht.widths]; exact h.scopes, by rw [ht.names, ht.widths]; exact h.names,
    by rw [ht.widths]; exact h.module, by rw [ht.inComment, ht.commentDelimiter]; exact h.delimiter⟩

theorem Memory.writeClosing {extra : Option Scope} (h : Memory c extra s) (hbehind : Behind c n s)
    (scope : Scope) :
    Memory c extra (s.writeClosing c scope) ∧ Behind c n (s.writeClosing c scope) := by
  simp only [State.writeClosing]
  split
  · exact ⟨h, hbehind⟩
  · have hsize := size_emit_line c.indentSize s.depth "\x7d" s.output
    refine ⟨⟨h.classes, h.functions, fun hjava i hi => ?_⟩, fun hjava _ i hi => ?_⟩
    · exact Nat.lt_trans (h.places hjava i hi) hsize
    · exact Nat.lt_of_le_of_lt (h.places hjava i hi) hsize

/-- Settling the result type of a function that is left. -/
theorem Memory.meets_settleResult (hjava : c = .toJava) (h : Memory c (some .function) s)
    (hbehind : Behind c n s) :
    Meets fails (fun t => Memory c none t ∧ Behind c n t ∧ SameBlocks s t) s.settleResult := by
  have hlength := h.functions hjava
  have hrest : ∀ entry rest, s.untyped = entry :: rest → ∀ output : Array Text,
      output.size = s.output.size → Memory c none { s with untyped := rest, output := output } ∧
        Behind c n { s with untyped := rest, output := output } := by
    intro entry rest huntyped output hsize
    rw [huntyped, length_cons] at hlength
    have hmem : ∀ i, some i ∈ rest → some i ∈ s.untyped := fun i hi => by
      rw [huntyped]
      exact mem_cons_of_mem _ hi
    refine ⟨⟨fun hc => h.classes hc, fun _ => by simpa using hlength, fun hc i hi => ?_⟩,
      fun hc hclosed i hi => ?_⟩
    · show i < output.size
      rw [hsize]
      exact h.places hc i (hmem i hi)
    · show i + 1 < output.size
      rw [hsize]
      exact hbehind hc hclosed i (hmem i hi)
  simp only [State.settleResult]
  split
  · rename_i hnil
    rw [hnil] at hlength
    simp at hlength
  · rename_i rest huntyped
    obtain ⟨hmemory, hafter⟩ := hrest _ rest huntyped s.output rfl
    exact .ok ⟨hmemory, hafter, rfl, rfl, rfl, rfl, rfl, rfl, rfl⟩
  · rename_i index rest huntyped
    have hindex : index < s.output.size :=
      h.places hjava index (by rw [huntyped]; exact mem_cons_self)
    rw [Array.getElem?_eq_getElem hindex]
    obtain ⟨hmemory, hafter⟩ := hrest _ rest huntyped
      (s.output.setIfInBounds index (replaceFirst " Object " " void " s.output[index])) (by simp)
    exact .ok ⟨hmemory, hafter, rfl, rfl, rfl, rfl, rfl, rfl, rfl⟩

/-- Leaving a scope forgets what was remembered for it. -/
theorem Memory.meets_leave (h : Memory c (some scope) s) (hbehind : Behind c n s) :
    Meets fails (fun t => Memory c none t ∧ Behind c n t ∧ SameBlocks s t) (s.leave c scope) := by
  simp only [State.leave]
  refine .ite (fun hjava => ?_) fun hjava => .ok ⟨?_, hbehind, rfl, rfl, rfl, rfl, rfl, rfl, rfl⟩
  · cases scope
    case classBody =>
      have hlength : s.classNames.length = s.scopes.count .classBody + 1 := h.classes hjava
      have hne : s.classNames ≠ [] := by
        intro hnil
        rw [hnil] at hlength
        cases hlength
      refine (meets_popped hne).bind fun names hnames => .ok ?_
      refine ⟨⟨fun _ => ?_, h.functions, h.places⟩, hbehind, rfl, rfl, rfl, rfl, rfl, rfl, rfl⟩
      show names.length = _
      rw [hnames, length_tail, hlength]
      rfl
    case function => exact h.meets_settleResult hjava hbehind
    all_goals
      exact .ok ⟨⟨h.classes, h.functions, h.places⟩, hbehind, rfl, rfl, rfl, rfl, rfl, rfl, rfl⟩
  · exact ⟨fun hc => absurd hc hjava, fun hc => absurd hc hjava, fun hc => absurd hc hjava⟩

theorem Stacks.writeClosing (h : Stacks s) (scope : Scope) : Stacks (s.writeClosing c scope) := by
  simp only [State.writeClosing]
  split <;> exact ⟨h.scopes, h.names, h.module, h.delimiter⟩

theorem writeClosing_blocks (c : Conversion) (s : State) (scope : Scope) :
    (s.writeClosing c scope).widths = s.widths ∧
    (s.writeClosing c scope).pendingScope = s.pendingScope := by
  simp only [State.writeClosing]
  split <;> exact ⟨rfl, rfl⟩

/-- The innermost block but the module can be closed. -/
theorem Settling.meets_pop {inner next : Nat} {rest : List Nat} (h : Settling c n s)
    (hwidths : s.widths = inner :: next :: rest) :
    Meets fails (fun t => Settling c n t ∧ t.widths = next :: rest) (s.pop c) := by
  have hscopes := h.blocks.scopes
  have hnames := h.blocks.names
  rw [hwidths] at hscopes hnames
  obtain ⟨scope, scopes, hscope⟩ := exists_cons_of_ne_nil h.blocks.scopes_ne_nil
  obtain ⟨first, names, hname⟩ : ∃ first names, s.names = first :: names :=
    exists_cons_of_ne_nil fun hnil => by rw [hnil] at hnames; cases hnames
  have hmemory : Memory c (some scope)
      { s with widths := next :: rest, scopes := scopes, names := names } := by
    have hold := h.memory
    rw [h.pending] at hold
    refine ⟨fun hjava => ?_, fun hjava => ?_, hold.places⟩
    · have hclasses := hold.classes hjava
      rw [hscope, count_cons] at hclasses
      simpa using hclasses
    · have hfunctions := hold.functions hjava
      rw [hscope, count_cons] at hfunctions
      simpa using hfunctions
  have hstacks : Stacks { s with widths := next :: rest, scopes := scopes, names := names } := by
    refine ⟨?_, ?_, cons_ne_nil _ _, h.blocks.delimiter⟩
    · rw [hscope] at hscopes
      simpa using hscopes
    · rw [hname] at hnames
      simpa using hnames
  obtain ⟨hclosing, hbehind⟩ := hmemory.writeClosing h.behind scope
  simp only [State.pop, hscope, hwidths, hname, innermost, popped]
  refine (hclosing.meets_leave hbehind).imp fun t ⟨hleft, hafter, hsame⟩ => ?_
  obtain ⟨hw, hp⟩ :=
    writeClosing_blocks c { s with widths := next :: rest, scopes := scopes, names := names } scope
  have hpending : t.pendingScope = none := (hsame.pendingScope.trans hp).trans h.pending
  refine ⟨⟨⟨(hstacks.writeClosing scope).same hsame, ?_⟩, hafter, hpending⟩, hsame.widths.trans hw⟩
  rw [hpending]
  exact hleft

theorem Settling.meets_closeWider (width fuel : Nat) (h : Settling c n s) :
    Meets fails (Settling c n) (s.closeWider c width fuel) :=
  Indent.meets_closeWider (fun _ _ _ _ hwidths ht => (ht.meets_pop hwidths).imp fun _ hu => hu.1)
    width fuel h

/-- Closing all blocks leaves the outermost one. -/
theorem Settling.meets_closeAll (fuel : Nat) (h : Settling c n s)
    (hfuel : s.widths.length ≤ fuel + 1) :
    Meets fails (fun t => Settling c n t ∧ t.widths.length = 1) (s.closeAll c fuel) := by
  have hmodule : 0 < s.widths.length := length_pos_of_ne_nil h.blocks.module
  induction fuel generalizing s with
  | zero => exact .ok ⟨h, by omega⟩
  | succ fuel ih =>
    simp only [State.closeAll]
    split
    · rename_i inner next rest hwidths
      refine (h.meets_pop hwidths).bind fun t ht => ih ht.1 ?_ ?_
      · rw [hwidths, length_cons] at hfuel
        rw [ht.2]
        omega
      · rw [ht.2, length_cons]
        omega
    · rename_i hshort
      refine .ok ⟨h, ?_⟩
      cases hwidths : s.widths with
      | nil => exact absurd hwidths h.blocks.module
      | cons inner rest =>
        cases rest with
        | nil => rfl
        | cons next rest => exact absurd hwidths (hshort inner next rest)

theorem Inv.meets_closeEmpty (h : Inv c s) (hbehind : Behind c n s)
    (hpending : s.pendingScope ≠ none) : Meets fails (Settling c n) (s.closeEmpty c) := by
  obtain ⟨scope, hscope⟩ := Option.ne_none_iff_exists'.mp hpending
  have hmemory := h.memory
  rw [hscope] at hmemory
  simp only [State.closeEmpty, hscope]
  refine (hmemory.meets_leave hbehind).bind fun t ⟨hleft, hafter, hsame⟩ => .ok ?_
  obtain ⟨hclosing, hbehind'⟩ := hleft.writeClosing hafter scope
  have hstacks := (h.blocks.same hsame).writeClosing (c := c) scope
  exact ⟨⟨⟨hstacks.scopes, hstacks.names, hstacks.module, hstacks.delimiter⟩,
    ⟨hclosing.classes, hclosing.functions, hclosing.places⟩⟩, hbehind', rfl⟩

theorem Inv.push (h : Inv c s) (hbehind : Behind c n s) (hscope : s.pendingScope = some scope)
    (width : Nat) : Settling c n (s.push width) := by
  have hmemory := h.memory
  rw [hscope] at hmemory
  refine ⟨⟨⟨?_, ?_, cons_ne_nil _ _, h.blocks.delimiter⟩, fun hjava => ?_, fun hjava => ?_,
    hmemory.places⟩, hbehind, rfl⟩
  · simp [State.push, h.blocks.scopes]
  · simp [State.push, h.blocks.names]
  · have hclasses := hmemory.classes hjava
    simpa [State.push, hscope, count_cons] using hclasses
  · have hfunctions := hmemory.functions hjava
    simpa [State.push, hscope, count_cons] using hfunctions

theorem Inv.meets_settleBlocks (h : Inv c s) (width : Nat) :
    Meets fails (Settling c 0) (settleBlocks c s width) := by
  have hstart : Inv c { s with closed := 0 } := h.flags s.hasContent s.brackets 0
  have hbehind : Behind c 0 { s with closed := 0 } :=
    fun _ hclosed => absurd hclosed (Nat.lt_irrefl 0)
  simp only [settleBlocks]
  refine .ite (fun hsome => ?_) fun hnone => ?_
  · obtain ⟨scope, hscope⟩ := Option.isSome_iff_exists.mp hsome
    refine (meets_innermost h.blocks.module).bind fun inner _ => .either ?_ ?_
    · exact (hstart.push hbehind hscope width).meets_closeWider _ _
    · have hpending : s.pendingScope ≠ none := Option.isSome_iff_ne_none.mp hsome
      exact (hstart.meets_closeEmpty hbehind hpending).bind fun t ht => ht.meets_closeWider _ _
  · have hsettling : Settling c 0 { s with closed := 0 } := ⟨hstart, hbehind, by simpa using hnone⟩
    exact hsettling.meets_closeWider _ _

end CodeConverter.Indent

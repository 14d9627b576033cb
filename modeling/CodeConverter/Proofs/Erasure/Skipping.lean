import CodeConverter.Proofs.Erasure.Total
import CodeConverter.Proofs.Text.Balance

/-!
# Skipped bodies

A line that concerns only the type checker and leaves braces open starts a body that is skipped. All
lines are dropped up to the one after which as many braces are closed as were opened, blank lines
apart. A line that closes more than that leaves a negative count, and the lines after it are dropped
as well.
-/

namespace CodeConverter.Erasure

open Text List

variable {s t : State} {header line : Text} {before body skipped : List Text}

/-- The line is not skipped, but starts a body that is. -/
def StartsBody (s : State) (header : Text) : Prop :=
  s.skipping = 0 ∧ ∃ t, visitLine s header = .ok t ∧ t.skipping ≠ 0

/-- The state with some lines skipped. Of these lines the blank ones are kept. -/
def State.skip (s : State) (skipped : List Text) : State :=
  { s with
    hasContent := true
    skipping := braceBalance skipped.flatten
    output := s.output ++ Array.replicate (skipped.countP fun line => (strip line).isEmpty) [] }

theorem braceBalance_append (t u : Text) :
    braceBalance (t ++ u) = braceBalance t + braceBalance u := by
  simp only [braceBalance, count_append]
  omega

theorem braceBalance_strip (t : Text) : braceBalance (strip t) = braceBalance t := by
  have hcount : ∀ {d : Char}, isBrace d = true → (strip t).count d = t.count d := fun hd => by
    rw [← count_filter hd, filter_strip, count_filter hd]
  rw [braceBalance, hcount rfl, hcount rfl, braceBalance]

theorem State.visitLine_skip (s : State) (hopen : braceBalance skipped.flatten ≠ 0) (line : Text) :
    visitLine (s.skip skipped) line = .ok (s.skip (skipped ++ [line])) := by
  have hbalance :
      braceBalance (skipped ++ [line]).flatten = braceBalance skipped.flatten + braceBalance
      (strip line) := by
    rw [flatten_append, braceBalance_append, flatten_singleton, braceBalance_strip]
  have hcontinues : (s.skip skipped).skipping ≠ 0 := hopen
  simp only [visitLine, if_pos hcontinues]
  by_cases hblank : (strip line).isEmpty = true
  · have hnone : braceBalance (strip line) = 0 := by rw [isEmpty_iff.mp hblank]; rfl
    simp only [if_pos hblank, State.skip, hbalance, hnone, Int.add_zero, countP_append,
      countP_singleton, Array.replicate_succ, Array.push_append]
    rfl
  · simp only [if_neg hblank, State.skip, hbalance, countP_append, countP_singleton, Nat.add_zero]
    rfl

theorem State.write_skipping (s : State) (indentation code : Text) :
    (s.write indentation code).skipping = s.skipping := by
  unfold State.write
  split <;> rfl

/-- Only the header of a body changes the count while it is zero. -/
theorem meets_visitLine_skipping (h : s.skipping = 0) :
    Yields (fun t => t.skipping = 0 ∨ 0 < braceBalance line ∧ t = s.skip [line])
    (visitLine s line) := by
  have hwrite : ∀ r : State × Text, r.1.skipping = s.skipping →
      (r.1.write (line.takeWhile isBlank) r.2).skipping = 0 :=
    fun r hr => (State.write_skipping _ _ _).trans (hr.trans h)
  simp only [visitLine]
  refine .ite (fun _ => .ok (.inl h)) fun hline => .ite (fun hne => absurd h hne) fun _ => ?_
  refine .either (.ok (.inl h)) (.either (.ok (.inl h)) ?_)
  refine .either ?_ ?_
  · refine .bind (show Yields (fun r => r.1.skipping = s.skipping) _ from ?_) fun r hr =>
      .ok (.inl (hwrite r hr))
    exact .either (.ok rfl) ((meets_true _).bind fun _ _ => .ok rfl)
  · split
    · refine .ok ?_
      unfold typeOnlyLine
      simp only [braceBalance_strip]
      split
      · rename_i hopen
        refine .inr ⟨hopen, ?_⟩
        simp [State.skip, hline]
      · exact .inl h
    · refine .bind (show Yields (fun r => r.1.skipping = s.skipping) _ from ?_) fun r hr =>
        .ok (.inl (hwrite r hr))
      exact (meets_true _).bind fun _ _ => .either (.ok rfl) (.ok rfl)
    · obtain ⟨inParameters, hfst⟩ := codeLine_fst { s with hasContent := true } (strip line)
      exact .ok (.inl (hwrite _ (by rw [hfst])))

theorem StartsBody.visitLine_eq (h : StartsBody s header) :
    0 < braceBalance header ∧ visitLine s header = .ok (s.skip [header]) := by
  obtain ⟨hzero, t, ht, hne⟩ := h
  have hvisit : Yields _ (visitLine s header) := meets_visitLine_skipping hzero
  rw [ht] at hvisit ⊢
  obtain ⟨hpos, rfl⟩ := hvisit.of_ok.resolve_left hne
  exact ⟨hpos, rfl⟩

/-- The lines of a body are skipped as long as the braces are not balanced. -/
theorem StartsBody.run_eq (hs : machine.run before = .ok s) (h : StartsBody s header)
    (hopen : ∀ front, front <+: body → front ≠ body → braceBalance (header :: front).flatten ≠ 0) :
    machine.run (before ++ header :: body) = .ok (s.skip (header :: body)) := by
  induction body using reverseRecOn with
  | nil =>
    rw [LineMachine.run_concat, hs]
    exact h.visitLine_eq.2
  | append_singleton body line ih =>
    have hbefore := ih fun front hfront _ => hopen front (hfront.trans (prefix_append _ _)) (by
      rintro rfl
      exact absurd hfront.length_le (by simp))
    have hlast := hopen body (prefix_append _ _) (by simp)
    rw [← cons_append, ← append_assoc, LineMachine.run_concat, hbefore]
    exact s.visitLine_skip hlast line

/-- A count that is not zero is that of a body whose braces were never balanced. -/
theorem exists_body {lines : List Text} (h : machine.run lines = .ok t) (hskip : t.skipping ≠ 0) :
    ∃ before header body s, lines = before ++ header :: body ∧ machine.run before = .ok s ∧
    StartsBody s header ∧ (∀ front, front <+: body → braceBalance (header :: front).flatten ≠ 0) ∧
      t.skipping = braceBalance (header :: body).flatten := by
  induction lines using reverseRecOn generalizing t with
  | nil =>
    obtain rfl : State.initial = t := Except.ok.inj h
    exact absurd rfl hskip
  | append_singleton lines line ih =>
    rw [LineMachine.run_concat] at h
    obtain ⟨u, hu, hvisit⟩ := exists_of_bind h
    by_cases hzero : u.skipping = 0
    · have hstarts : StartsBody u line := ⟨hzero, t, hvisit, hskip⟩
      obtain ⟨hpos, heq⟩ := hstarts.visitLine_eq
      obtain rfl : u.skip [line] = t := Except.ok.inj (heq.symm.trans hvisit)
      refine ⟨lines, line, [], u, rfl, hu, hstarts, fun front hfront => ?_, rfl⟩
      rw [prefix_nil.mp hfront]
      exact hskip
    · obtain ⟨before, header, body, s, rfl, hs, hstarts, hnever, hcount⟩ := ih hu hzero
      have hrun := hstarts.run_eq hs fun front hfront _ => hnever front hfront
      obtain rfl : s.skip (header :: body) = u := Except.ok.inj (hrun.symm.trans hu)
      have hnext := s.visitLine_skip hzero line
      obtain rfl : s.skip (header :: body ++ [line]) = t := Except.ok.inj (hnext.symm.trans hvisit)
      refine ⟨before, header, body ++ [line], s, by simp, hs, hstarts, fun front hfront => ?_, rfl⟩
      rcases prefix_concat_iff.mp hfront with rfl | hfront
      · exact hskip
      · exact hnever front hfront

/-- The count of open braces stays at zero or above exactly if no line of a skipped body closes more
braces than are open. From the header on all lines but blank ones are dropped as long as the braces
are not balanced, so the line that balances them is the last one. -/
theorem skipping_nonneg_iff (lines : List Text) :
    ((∀ front s, front <+: lines → machine.run front = .ok s → 0 ≤ s.skipping) ↔
      ∀ before header body s, before ++ header :: body <+: lines → machine.run before = .ok s →
      StartsBody s header →
        (∀ front, front <+: body → front ≠ body → 0 < braceBalance (header :: front).flatten) →
        0 ≤ braceBalance (header :: body).flatten) ∧
    ∀ before header body s, machine.run before = .ok s → StartsBody s header →
      (∀ front, front <+: body → front ≠ body → braceBalance (header :: front).flatten ≠ 0) →
      machine.run (before ++ header :: body) = .ok (s.skip (header :: body)) := by
  refine ⟨⟨fun h before header body s hlines hs hstarts hopen => ?_, fun h front s hfront hs => ?_⟩,
    fun before header body s hs hstarts hopen => hstarts.run_eq hs hopen⟩
  · exact h _ _ hlines (hstarts.run_eq hs fun front hfront hne =>
      Int.ne_of_gt (hopen front hfront hne))
  · induction hlength : front.length using Nat.strongRecOn generalizing front s with
    | ind n ih =>
      by_contra hneg
      obtain ⟨before, header, body, u, rfl, hu, hstarts, hnever, hcount⟩ :=
        exists_body hs (by omega)
      refine hneg (hcount ▸ h before header body u hfront hu hstarts fun part hpart hne => ?_)
      have hshorter : before ++ header :: part <+: before ++ header :: body := by
        rw [prefix_append_right_inj, cons_prefix_cons]
        exact ⟨rfl, hpart⟩
      have hrun := hstarts.run_eq hu fun first hfirst _ => hnever first (hfirst.trans hpart)
      have hless : (before ++ header :: part).length < n := by
        rw [← hlength]
        exact Nat.lt_of_le_of_ne hshorter.length_le fun heq => hne (by
          have := hshorter.eq_of_length heq
          simpa using this)
      have hnonneg := ih _ hless _ _ (hshorter.trans hfront) hrun rfl
      have hne := hnever part hpart
      change 0 ≤ braceBalance (header :: part).flatten at hnonneg
      omega

/-- A body with a blank line, closed by its last line. -/
theorem skipping_nonneg_iff_interface :
    StartsBody .initial "interface A \x7b" ∧
    machine.run ["interface A \x7b", "  x: number", "", "\x7d"] =
      .ok (State.initial.skip ["interface A \x7b", "  x: number", "", "\x7d"]) := by
  have hstarts : StartsBody .initial "interface A \x7b" := ⟨rfl, _, rfl, by decide⟩
  refine ⟨hstarts,
    (skipping_nonneg_iff []).2 [] _ ["  x: number", "", "\x7d"] _ rfl hstarts
    fun front hfront => ?_⟩
  rw [← mem_inits] at hfront
  revert front
  decide

/-- A line that also closes the block around the body leaves a negative count, and the lines after
it are lost. -/
theorem skipping_negative :
    (machine.run (lines "namespace N \x7b\n  interface A \x7b\n    x: number \x7d\x7d")).map
    State.skipping = .ok (-1) ∧
      machine.convert "namespace N \x7b\n  interface A \x7b\n    x: number \x7d\x7d\nf();" =
      .ok "namespace N \x7b" := by
  decide +kernel

end CodeConverter.Erasure

import CodeConverter.Proofs.Indent.Stack

/-!
# Which blocks a line leaves open

A line of code either opens the announced block or closes some of the innermost ones. Nothing else
of the state takes part in it but what is written, the names of classes and the unsettled result
types.
-/

namespace CodeConverter.Indent

open Text List

variable {c : Conversion} {s t u : State} {k m : Nat}

/-- The state with its innermost blocks closed, `k` of them. The names of a block that is not
announced any more do not count. -/
def Closes (k : Nat) (s t : State) : Prop :=
  ∃ output closed classNames untyped pendingNames, t = { s with
    widths := s.widths.drop k, scopes := s.scopes.drop k, names := s.names.drop k,
    pendingNames := pendingNames, output := output, closed := closed, classNames := classNames,
    untyped := untyped }

theorem Closes.rfl : Closes 0 s s := ⟨_, _, _, _, _, Eq.refl _⟩

theorem Closes.trans (h : Closes k s t) (h' : Closes m t u) : Closes (k + m) s u := by
  obtain ⟨output, closed, classNames, untyped, pendingNames, rfl⟩ := h
  obtain ⟨output, closed, classNames, untyped, pendingNames, rfl⟩ := h'
  exact ⟨output, closed, classNames, untyped, pendingNames, by simp only [drop_drop]⟩

theorem Closes.output (h : Closes k s t) (output : Array Text) :
    Closes k s { t with output := output } := by
  obtain ⟨_, closed, classNames, untyped, pendingNames, rfl⟩ := h
  exact ⟨output, closed, classNames, untyped, pendingNames, .refl _⟩

theorem closes_writeClosing (c : Conversion) (s : State) (scope : Scope) :
    Closes 0 s (s.writeClosing c scope) := by
  unfold State.writeClosing
  split <;> exact ⟨_, _, _, _, _, rfl⟩

/-- Leaving a scope closes no further block. -/
theorem meets_leave_closes (c : Conversion) (s : State) (scope : Scope) :
    Yields (Closes 0 s) (s.leave c scope) := by
  unfold State.leave
  refine .either ?_ (.ok .rfl)
  cases scope
  case classBody =>
    cases s.classNames with
    | nil => exact .error trivial
    | cons name names => exact .ok ⟨_, _, _, _, _, rfl⟩
  case function =>
    show Meets _ _ s.settleResult
    unfold State.settleResult
    split
    · exact .error trivial
    · exact .ok ⟨_, _, _, _, _, rfl⟩
    · split
      · exact .error trivial
      · exact .ok ⟨_, _, _, _, _, rfl⟩
  all_goals exact .ok .rfl

theorem meets_pop_closes (c : Conversion) (s : State) : Yields (Closes 1 s) (s.pop c) := by
  have hpopped : ∀ {α : Type} (l : List α), Yields (fun rest => rest = l.drop 1) (popped l) := by
    intro α l
    cases l with
    | nil => exact .error trivial
    | cons a l => exact .ok rfl
  unfold State.pop
  refine (meets_true _).bind fun scope _ => (hpopped s.widths).bind fun widths hwidths => ?_
  refine (hpopped s.scopes).bind fun scopes hscopes => (hpopped s.names).bind fun names hnames => ?_
  subst hwidths hscopes hnames
  refine (meets_leave_closes c _ scope).imp fun t ht => ?_
  have hclosed : Closes 1 s
      { s with widths := s.widths.drop 1, scopes := s.scopes.drop 1, names := s.names.drop 1 } :=
    ⟨_, _, _, _, _, rfl⟩
  exact (hclosed.trans (closes_writeClosing c _ scope)).trans ht

theorem Closes.meets_pop (h : ∃ k, Closes k s t) (c : Conversion) :
    Yields (fun u => ∃ k, Closes k s u) (t.pop c) := by
  obtain ⟨k, h⟩ := h
  exact (meets_pop_closes c t).imp fun u hu => ⟨_, h.trans hu⟩

theorem meets_closeWider_closes (c : Conversion) (width fuel : Nat) (s : State) :
    Yields (fun t => ∃ k, Closes k s t) (s.closeWider c width fuel) :=
  meets_closeWider (fun _ _ _ _ _ ht => Closes.meets_pop ht c) width fuel ⟨0, .rfl⟩

theorem meets_closeAll_closes (c : Conversion) (fuel : Nat) (s : State) :
    Yields (fun t => ∃ k, Closes k s t) (s.closeAll c fuel) :=
  meets_closeAll (fun _ _ _ _ _ ht => Closes.meets_pop ht c) fuel ⟨0, .rfl⟩

theorem meets_closeEmpty_closes (c : Conversion) (s : State) :
    Yields (Closes 0 { s with pendingScope := none }) (s.closeEmpty c) := by
  unfold State.closeEmpty
  split
  · rename_i hnone
    exact .ok ⟨s.output, s.closed, s.classNames, s.untyped, [], by rw [← hnone]; rfl⟩
  · rename_i scope _
    refine (meets_leave_closes c s scope).bind fun t ht => .ok ?_
    obtain ⟨_, _, _, _, _, heq⟩ := ht.trans (closes_writeClosing c t scope)
    rw [heq]
    exact ⟨_, _, _, _, _, rfl⟩

theorem Inv.meets_settleBlocks_line (hs : Inv c s) (width : Nat) :
    Yields (Settling c 0) (settleBlocks c { s with hasContent := true } width) := by
  have hinv := hs.content
  exact hinv.meets_settleBlocks _

/-- A line of code opens the announced block, if there is one and the line is wider than the
innermost block, and otherwise closes some blocks. -/
theorem meets_settleBlocks_closes (c : Conversion) (s : State) (width : Nat) :
    Yields (fun t => (s.pendingScope.isSome = true ∧ (∃ inner ∈ s.widths.head?, inner < width) ∧
      t = { s with closed := 0 }.push width) ∨ ∃ k, Closes k { s with pendingScope := none } t)
      (settleBlocks c s width) := by
  have hinnermost : Yields (fun inner => s.widths.head? = some inner) (innermost s.widths) := by
    cases s.widths with
    | nil => exact .error trivial
    | cons inner widths => exact .ok rfl
  unfold settleBlocks
  refine .ite (fun hsome => hinnermost.bind fun inner hinner => .ite (fun hwider => ?_) fun _ => ?_)
    fun hnone => ?_
  · have hpushed : ({ s with closed := 0 }.push width).closeWider c width
      ({ s with closed := 0 }.push width).widths.length =
        pure ({ s with closed := 0 }.push width) := by
      cases s.widths with
      | nil => simp only [State.push, State.closeWider, length_singleton]
      | cons outer widths =>
          simp only [State.push, State.closeWider, length_cons, if_neg (Nat.lt_irrefl width)]
    show Meets _ _ (State.closeWider c width _ _)
    rw [hpushed]
    exact .ok (.inl ⟨hsome, ⟨inner, hinner, hwider⟩, rfl⟩)
  · refine (meets_closeEmpty_closes c _).bind fun t ht =>
      (meets_closeWider_closes c width _ t).imp fun u hu => .inr ?_
    obtain ⟨k, hu⟩ := hu
    obtain ⟨_, _, _, _, _, heq⟩ := ht.trans hu
    rw [heq]
    exact ⟨_, _, _, _, _, _, rfl⟩
  · refine (meets_closeWider_closes c width _ _).imp fun u hu => .inr ?_
    have hnone : s.pendingScope = none := by simpa using hnone
    obtain ⟨k, _, _, _, _, _, heq⟩ := hu
    rw [heq, ← hnone]
    exact ⟨k, _, _, _, _, _, rfl⟩

theorem meets_finish_closes (c : Conversion) (s : State) :
    Yields (fun t => ∃ k, Closes k { s with pendingScope := none } t) (finish c s) := by
  refine meets_finish (fun _ _ => meets_closeEmpty_closes c s) (fun hnone => ?_) fun t ht => ?_
  · exact ⟨s.output, s.closed, s.classNames, s.untyped, s.pendingNames, by rw [← hnone]; rfl⟩
  · refine (meets_closeAll_closes c _ t).imp fun u hu => ?_
    obtain ⟨k, hu⟩ := hu
    exact ⟨⟨_, ht.trans hu⟩, fun _ => ⟨_, (ht.trans hu).output _⟩⟩

end CodeConverter.Indent

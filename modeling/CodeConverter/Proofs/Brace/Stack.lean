import CodeConverter.Proofs.Brace.Move.ToBrace

/-!
# The stacks of a brace source

There are as many remembered class names as open scopes that end a class, and skipped scopes lie on
top of the stack. Every move of a line keeps this, so no stack is empty when something is taken from
it.
-/

namespace CodeConverter.Brace

open Text Literal List

variable {scope : Scope}

/-- Every remembered class name belongs to an open scope that ends a class, and skipped scopes lie
on top. -/
structure Inv (c : Conversion) (s : State) : Prop where
  classes : s.classNames.length = s.scopes.countP c.endsClass
  skipped : ∃ n rest, s.scopes = replicate n .skipped ++ rest ∧ Scope.skipped ∉ rest

namespace Inv

variable {c : Conversion} {s t : State}

theorem initial (c : Conversion) : Inv c State.initial :=
  ⟨rfl, 0, [], rfl, not_mem_nil⟩

theorem agrees (h : Inv c s) (ht : t.Agrees s) : Inv c t := by
  refine ⟨?_, ?_⟩
  · rw [ht.classNames, ht.scopes]
    exact h.classes
  · rw [ht.scopes]
    exact h.skipped

theorem meets_closeBlock {fails : Fault → Prop} (h : Inv c s) :
    Meets fails (fun _ => True) (s.closeBlock c) := by
  simp only [State.closeBlock]
  split
  · exact .ok trivial
  · rename_i scope rest hscopes
    refine .ite (fun hends => ?_) fun _ => .ok trivial
    have hclasses := h.classes
    rw [hscopes, countP_cons_of_pos hends] at hclasses
    exact (meets_popped (ne_nil_of_length_eq_add_one hclasses)).bind fun _ _ => .ok trivial

theorem push (h : Inv c s) (hskip : Scope.skipped ∉ s.scopes) (hends : c.endsClass scope = false)
    (hscopes : t.scopes = scope :: s.scopes) (hnames : t.classNames = s.classNames) : Inv c t := by
  refine ⟨?_, ?_⟩
  · rw [hnames, hscopes, countP_cons_of_neg (by simp [hends])]
    exact h.classes
  · by_cases hkind : scope = .skipped
    · exact ⟨1, s.scopes, by rw [hscopes, hkind]; rfl, hskip⟩
    · refine ⟨0, t.scopes, rfl, ?_⟩
      rw [hscopes, mem_cons, not_or]
      exact ⟨Ne.symm hkind, hskip⟩

theorem enter (h : Inv c s) (hskip : Scope.skipped ∉ s.scopes) {name : Text}
    (hends : c.endsClass scope = true) (hscopes : t.scopes = scope :: s.scopes)
    (hnames : t.classNames = name :: s.classNames) : Inv c t := by
  refine ⟨?_, 0, t.scopes, rfl, ?_⟩
  · rw [hnames, hscopes, countP_cons_of_pos hends, length_cons, h.classes]
  · rw [hscopes, mem_cons, not_or]
    refine ⟨?_, hskip⟩
    rintro rfl
    cases c <;> cases hends

end Inv

/-- A move puts a scope that ends a class on the stack exactly if it remembers the name of the
class. -/
def Move.Fits (c : Conversion) : Move → Prop
  | .opens scope => c.endsClass scope = false
  | .enters scope _ => c.endsClass scope = true
  | _ => True

theorem ToIndent.fits_move (c : Conversion) (s : State) (l : Classified) : (move c s l).Fits c := by
  refine move_elim trivial trivial trivial trivial (by cases c <;> rfl) fun _ => ?_
  split
  · assumption
  · rename_i hremembers
    exact Bool.eq_false_iff.mpr hremembers

/-- The moves of lines written with braces. -/
theorem ToBrace.fits_move {c : Conversion} (hc : c.remembersClasses = true) (s : State)
    (l : Classified) : (move c s l).Fits c := by
  refine move_elim trivial trivial trivial trivial (by cases c <;> rfl) (by cases c <;> rfl)
    (fun _ => by cases c <;> rfl) (fun _ => by cases c <;> rfl) fun _ => ?_
  unfold classMove
  split
  · rename_i hjava
    obtain rfl : c = .javaToJavaScript := by simpa using (Bool.and_eq_true_iff.mp hjava).1
    rfl
  · exact hc

/-- A move that fits keeps the invariant. -/
theorem Inv.leads {c : Conversion} {s after : State} {line : Text} {m : Move} (h : Inv c s)
    (hskip : Scope.skipped ∉ s.scopes) (hfits : m.Fits c) (hleads : m.Leads c s line after) :
    Inv c after := by
  cases m with
  | stay => exact h.agrees hleads.toAgrees
  | literal => exact h.push hskip (by cases c <;> rfl) hleads.scopes hleads.classNames
  | opens scope => exact h.push hskip hfits hleads.scopes hleads.classNames
  | enters scope name => exact h.enter hskip hfits hleads.scopes hleads.classNames
  | brace =>
    simp only [Move.Leads] at hleads
    split at hleads
    · have hwaiting : Inv c { s with awaitingBrace := false } := ⟨h.classes, h.skipped⟩
      exact hwaiting.agrees hleads.toAgrees
    · exact h.push hskip (by cases c <;> rfl) hleads.scopes hleads.classNames
  | closes =>
    obtain ⟨scope, t, hclose, hagrees⟩ := hleads
    refine .agrees ?_ hagrees.toAgrees
    rcases closeBlock_cases hclose with ⟨-, -, rfl⟩ | ⟨first, rest, hscopes, -, rfl⟩
    · exact h
    · have hclasses := h.classes
      rw [hscopes, countP_cons] at hclasses
      refine ⟨?_, 0, rest, rfl, fun hmem => hskip (hscopes ▸ mem_cons_of_mem _ hmem)⟩
      show (if c.endsClass first then s.classNames.tail else s.classNames).length = _
      split <;> simp_all

end CodeConverter.Brace

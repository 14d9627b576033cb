import Mathlib.Data.List.Chain
import CodeConverter.Proofs.Erasure.Drawn

/-!
# The rounds over the parentheses of a line

Signatures are looked for at one parenthesis after another, in a line that the rounds before have
changed. Each round leaves fewer parentheses ahead and does not touch the text up to the one it
stands at.
-/

namespace CodeConverter.Erasure

open Text List

variable {t head tail next rest : Text} {s : Text × Text}

/-- One round at the parenthesis that ends the first text: the line it leaves, and the next
parenthesis if there is one. -/
def visit (s : Text × Text) : Text × Option (Text × Text) :=
  match closingParenthesis 1 none s.2 with
  | none => (s.1 ++ s.2, none)
  | some close =>
    let tail := stripAfter s.1 s.2 close
    (s.1 ++ tail, (cutParenthesis tail).map fun next => (s.1 ++ next.1, next.2))

theorem stripSignaturesFrom_succ (n : Nat) (s : Text × Text) : stripSignaturesFrom (n + 1) s.1 s.2 =
    (visit s).2.elim (visit s).1 fun next => stripSignaturesFrom n next.1 next.2 := by
  rw [stripSignaturesFrom, visit]
  cases closingParenthesis 1 none s.2 with
  | none => rfl
  | some close =>
    dsimp only
    cases cutParenthesis (stripAfter s.1 s.2 close) <;> rfl

theorem count_of_cutParenthesis (h : cutParenthesis t = some (head, tail)) :
    head.getLast? = some '(' ∧ tail.count '(' < t.count '(' := by
  have hparts := cutParenthesis_append h
  have hlast : head.getLast? = some '(' := by
    simp only [cutParenthesis] at h
    split at h
    · cases h
    · rename_i c rest heq
      obtain ⟨rfl, rfl⟩ := Prod.mk.inj (Option.some.inj h)
      have hc := head?_dropWhile_not (· ≠ '(') t
      rw [heq] at hc
      simpa using hc
  refine ⟨hlast, ?_⟩
  have hpos : 0 < head.count '(' := count_pos_iff.mpr (mem_of_getLast? hlast)
  rw [← hparts, count_append]
  omega

/-- A later parenthesis: fewer are ahead of it, and the text up to the earlier one is kept. -/
def IsLater (s later : Text × Text) : Prop :=
  later.2.count '(' < s.2.count '(' ∧ s.1 <+: later.1

theorem prefix_visit (s : Text × Text) : s.1 <+: (visit s).1 := by
  rw [visit]
  split <;> exact prefix_append _ _

/-- A round goes on to a later parenthesis. -/
theorem visit_next {next : Text × Text} (h : (visit s).2 = some next) :
    visit s = (next.1 ++ next.2, some next) ∧ IsLater s next ∧ next.1.getLast? = some '(' := by
  rw [visit] at h ⊢
  split at h
  · cases h
  · rename_i close _
    obtain ⟨after, hafter, rfl⟩ := Option.map_eq_some_iff.mp h
    obtain ⟨hlast, hcount⟩ := count_of_cutParenthesis hafter
    have hadds : (stripAfter s.1 s.2 close).count '(' ≤ s.2.count '(' :=
      (drawn_stripAfter _ _ _).count_le (by decide)
    dsimp only
    rw [hafter, append_assoc, cutParenthesis_append hafter, getLast?_append, hlast]
    exact ⟨rfl, ⟨Nat.lt_of_lt_of_le hcount hadds, prefix_append _ _⟩, rfl⟩

/-- From a parenthesis on there are at most as many further rounds as there are parentheses
ahead. -/
theorem exists_rounds {n : Nat} (hn : s.2.count '(' < n) (hs : s.1.getLast? = some '(') :
    ∃ later, IsChain (fun s next => visit s = (next.1 ++ next.2, some next)) (s :: later) ∧
      (s :: later).getLast?.map visit = some (stripSignaturesFrom n s.1 s.2, none) ∧
      Pairwise IsLater (s :: later) ∧
      ∀ x ∈ s :: later, x.1.getLast? = some '(' ∧ x.1 <+: stripSignaturesFrom n s.1 s.2 := by
  induction n generalizing s with
  | zero => exact absurd hn (Nat.not_lt_zero _)
  | succ n ih =>
    rw [stripSignaturesFrom_succ]
    cases hnext : (visit s).2 with
    | none =>
      have hvisit : visit s = ((visit s).1, none) := Prod.ext rfl hnext
      exact ⟨[], .singleton s, congrArg some hvisit, pairwise_singleton _ _,
        forall_mem_singleton.mpr ⟨hs, prefix_visit s⟩⟩
    | some next =>
      obtain ⟨hvisit, hlater, hstands⟩ := visit_next hnext
      obtain ⟨later, hchain, hlast, hpairs, hkept⟩ :=
        ih (Nat.lt_of_lt_of_le hlater.1 (Nat.le_of_lt_succ hn)) hstands
      refine ⟨next :: later, hchain.cons_cons hvisit, hlast, pairwise_cons.mpr ⟨?_, hpairs⟩,
        forall_mem_cons.mpr ⟨⟨hs, hlater.2.trans (hkept next mem_cons_self).2⟩, hkept⟩⟩
      refine forall_mem_cons.mpr ⟨hlater, fun x hx => ?_⟩
      obtain ⟨hfewer, hprefix⟩ := (pairwise_cons.mp hpairs).1 x hx
      exact ⟨Nat.lt_trans hfewer hlater.1, hlater.2.trans hprefix⟩

/-- Looking for signatures comes to an end: every round leaves fewer parentheses ahead, and what
stands up to the parenthesis of a round is kept by this round and by all later ones. -/
theorem stripSignatures_rounds (t : Text) : ∃ rounds : List (Text × Text),
    rounds.head? = cutParenthesis t ∧
    IsChain (fun s next => visit s = (next.1 ++ next.2, some next)) rounds ∧
      rounds.getLast?.elim (t, none) visit = (stripSignatures t, none) ∧
      Pairwise (fun s later => later.2.count '(' < s.2.count '(' ∧ s.1 <+: later.1) rounds ∧
      ∀ s ∈ rounds, s.1.getLast? = some '(' ∧ s.1 <+: (visit s).1 ∧ s.1 <+: stripSignatures t := by
  rw [stripSignatures]
  cases hcut : cutParenthesis t with
  | none => exact ⟨[], rfl, .nil, rfl, .nil, forall_mem_nil _⟩
  | some s =>
    obtain ⟨hstands, hcount⟩ := count_of_cutParenthesis hcut
    obtain ⟨later, hchain, hlast, hpairs, hkept⟩ := exists_rounds hcount hstands
    obtain ⟨last, hmem, hvisit⟩ := Option.map_eq_some_iff.mp hlast
    refine ⟨s :: later, rfl, hchain, ?_, hpairs, fun x hx =>
      ⟨(hkept x hx).1, prefix_visit x, (hkept x hx).2⟩⟩
    rw [hmem]
    exact hvisit

end CodeConverter.Erasure

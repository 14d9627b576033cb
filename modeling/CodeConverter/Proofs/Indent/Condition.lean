import CodeConverter.Indent.Scan
import CodeConverter.Proofs.Text.Part

/-!
# Conditions in parentheses

The first parenthesis of a text may be matched before its last one. A condition is put into
parentheses unless its respelling starts and ends with one, so a respelling of several parenthesised
parts is taken for one that is wrapped already. `condition_isWrapped_iff` says when the condition
that is written is a single expression in parentheses.
-/

namespace CodeConverter.Text

open List Expression.ToPython

variable {t u : Text} {c : Char}

/-- The parentheses opened by a text minus those closed by it. -/
def net (t : Text) : Int :=
  (t.count '(' : Int) - t.count ')'

/-- Every parenthesis of the text is closed, and only after it was opened. -/
structure IsMatched (t : Text) : Prop where
  front : ∀ p, p <+: t → 0 ≤ net p
  whole : net t = 0

/-- The text starts with a parenthesis, and the one that matches it is its last character. -/
structure IsWrapped (t : Text) : Prop where
  first : t.head? = some '('
  inside : ∀ p u, t = p ++ u → p ≠ [] → u ≠ [] → 0 < net p
  whole : net t = 0

theorem net_append (t u : Text) : net (t ++ u) = net t + net u := by
  simp only [net, count_append]
  omega

theorem net_cons (c : Char) (t : Text) :
    net (c :: t) = (if c = '(' then 1 else if c = ')' then -1 else 0) + net t := by
  simp only [net, count_cons, beq_iff_eq]
  split_ifs <;> simp_all <;> omega

/-- Coming back to depth zero early is having a proper beginning that does. -/
theorem closesEarly_iff (depth : Int) (t : Text) : closesEarly depth t = true ↔
    ∃ p u, t = p ++ u ∧ p ≠ [] ∧ u ≠ [] ∧ depth + net p = 0 := by
  induction t generalizing depth with
  | nil =>
    refine ⟨fun h => (by cases h), ?_⟩
    rintro ⟨p, u, heq, hp, -⟩
    exact absurd (append_eq_nil_iff.mp heq.symm).1 hp
  | cons c t ih =>
    cases t with
    | nil =>
      refine ⟨fun h => (by cases h), ?_⟩
      rintro ⟨p, u, heq, hp, hu, -⟩
      rcases append_eq_singleton_iff.mp heq.symm with ⟨rfl, -⟩ | ⟨-, rfl⟩
      · exact absurd rfl hp
      · exact absurd rfl hu
    | cons d t =>
      simp only [closesEarly, Bool.or_eq_true, decide_eq_true_eq, ih]
      constructor
      · rintro (hzero | ⟨p, u, heq, -, hu, hzero⟩)
        · refine ⟨[c], d :: t, rfl, cons_ne_nil _ _, cons_ne_nil _ _, ?_⟩
          rw [net_cons, ← Int.add_assoc, hzero]
          rfl
        · refine ⟨c :: p, u, by rw [heq]; rfl, cons_ne_nil _ _, hu, ?_⟩
          rw [net_cons]
          omega
      · rintro ⟨p, u, heq, hp, hu, hzero⟩
        obtain ⟨c', p, rfl⟩ := exists_cons_of_ne_nil hp
        obtain ⟨rfl, htail⟩ := cons.inj heq
        rw [net_cons] at hzero
        by_cases hnil : p = []
        · left
          simpa [hnil, net] using hzero
        · exact .inr ⟨p, u, htail, hnil, hu, by omega⟩

theorem IsWrapped.ends (h : IsWrapped t) : startsWith t "(" = true ∧ endsWith t ")" = true := by
  obtain ⟨rest, rfl⟩ : ∃ rest, t = '(' :: rest := head?_eq_some_iff.mp h.first
  refine ⟨rfl, ?_⟩
  rcases eq_nil_or_concat' rest with rfl | ⟨front, c, rfl⟩
  · exact absurd h.whole (by decide)
  · have hfront := h.inside ('(' :: front) [c] rfl (cons_ne_nil _ _) (cons_ne_nil _ _)
    have hwhole := h.whole
    rw [← cons_append, net_append, net_cons c []] at hwhole
    have hclose : c = ')' := by
      by_contra hother
      rw [if_neg hother] at hwhole
      have hnil : net [] = 0 := rfl
      split_ifs at hwhole <;> omega
    subst hclose
    exact isSuffixOf_iff_suffix.mpr ⟨'(' :: front, rfl⟩

theorem IsMatched.isWrapped_parenthesised (h : IsMatched t) : IsWrapped ("(" ++ t ++ ")") where
  first := rfl
  inside := by
    intro p u heq hp hu
    obtain ⟨c, p, rfl⟩ := exists_cons_of_ne_nil hp
    obtain ⟨rfl, htail⟩ : '(' = c ∧ t ++ [')'] = p ++ u := cons.inj heq
    have hprefix : p <+: t := by
      refine prefix_of_prefix_length_le ⟨u, htail.symm⟩ (prefix_append t [')']) ?_
      have hlength := congrArg List.length htail
      have hpos := length_pos_iff.mpr hu
      simp at hlength
      omega
    have hfront := h.front p hprefix
    rw [net_cons, if_pos rfl]
    omega
  whole := by
    rw [net_append, net_append, h.whole]
    rfl

/-- Parentheses are taken off exactly if they enclose the whole. -/
theorem IsMatched.isWrapped_iff_unwrap (h : IsMatched t) : IsWrapped t ↔ unwrap t ≠ t := by
  have hearly : IsWrapped t ↔
      (startsWith t "(" && endsWith t ")" && !closesEarly 0 t) = true := by
    rw [Bool.and_eq_true, Bool.and_eq_true, Bool.not_eq_true', Bool.eq_false_iff, ne_eq,
      closesEarly_iff]
    constructor
    · intro hwrapped
      refine ⟨hwrapped.ends, ?_⟩
      rintro ⟨p, u, heq, hp, hu, hzero⟩
      have hpos := hwrapped.inside p u heq hp hu
      omega
    · rintro ⟨⟨hstarts, -⟩, hlate⟩
      refine ⟨?_, fun p u heq hp hu => ?_, h.whole⟩
      · obtain ⟨rest, rfl⟩ := isPrefixOf_iff_prefix.mp hstarts
        rfl
      · have hfront := h.front p ⟨u, heq.symm⟩
        have hnonzero : 0 + net p ≠ 0 := fun hzero => hlate ⟨p, u, heq, hp, hu, hzero⟩
        omega
  rw [hearly, unwrap]
  split_ifs with hwraps
  · refine iff_of_true hwraps fun heq => ?_
    obtain ⟨rest, rfl⟩ := head?_eq_some_iff.mp (hearly.mpr hwraps).first
    have hlength := congrArg List.length heq
    simp at hlength
  · exact iff_of_false hwraps fun hne => hne rfl

end CodeConverter.Text

namespace CodeConverter.Indent

open Text

variable {c : Conversion} {s : State} {t out : Text}

/-- Where the respelling of a condition has matched parentheses, the condition that is written is
one expression in parentheses exactly if the respelling is wrapped, which is when a pair can be
taken off it, or does not both start and end with a parenthesis. A pair is added in the latter case
only. -/
theorem condition_isWrapped_iff (h : s.expression c t = .ok out) (hmatched : IsMatched out) :
    ∃ r, s.condition c t = .ok r ∧
    (IsWrapped r ↔ IsWrapped out ∨ (startsWith out "(" && endsWith out ")") = false) ∧
      (r = "(" ++ out ++ ")" ↔ (startsWith out "(" && endsWith out ")") = false) ∧
      (IsWrapped out ↔ Expression.ToPython.unwrap out ≠ out) := by
  have hcondition : s.condition c t =
      .ok (if startsWith out "(" && endsWith out ")" then out else "(" ++ out ++ ")") := by
    rw [State.condition, h]
    show (if startsWith out "(" && endsWith out ")" then pure out else pure _) = _
    split <;> rfl
  refine ⟨_, hcondition, ?_, ?_, hmatched.isWrapped_iff_unwrap⟩
  · split_ifs with hends
    · simp only [hends, Bool.true_eq_false, or_false]
    · exact iff_of_true hmatched.isWrapped_parenthesised (.inr (Bool.eq_false_iff.mpr hends))
  · split_ifs with hends
    · refine iff_of_false (fun heq => ?_)
        (by simp only [hends, Bool.true_eq_false, not_false_eq_true])
      have hlength := congrArg List.length heq
      simp at hlength
      omega
    · exact iff_of_true rfl (Bool.eq_false_iff.mpr hends)

/-- A comparison of two parenthesised sums gets its pair. -/
theorem condition_isWrapped_iff_comparison :
    ∃ r, State.initial.condition .toJava "(a + b) < (c)*2" = .ok r ∧ IsWrapped r := by
  have hout : State.initial.expression .toJava "(a + b) < (c)*2" = .ok "(a + b) < (c)*2" := by
    decide +kernel
  have hmatched : IsMatched "(a + b) < (c)*2" := by
    refine ⟨fun p hp => ?_, by decide⟩
    have hfronts : ∀ p ∈ "(a + b) < (c)*2".toList.inits, 0 ≤ net p := by decide
    exact hfronts p ((List.mem_inits _ _).mpr hp)
  obtain ⟨r, hr, hwrapped, -⟩ := condition_isWrapped_iff hout hmatched
  exact ⟨r, hr, hwrapped.mpr (.inr rfl)⟩

/-- A condition of two parenthesised parts starts and ends with a parenthesis, but these do not
match. -/
theorem condition_of_two_parts :
    State.initial.condition .toJavaScript "(a) and (b)" = .ok "(a) && (b)" ∧
      ¬ IsWrapped "(a) && (b)" ∧ Expression.ToPython.unwrap "(a) && (b)" = "(a) && (b)" := by
  refine ⟨by decide +kernel, fun h => ?_, by decide⟩
  exact absurd (h.inside "(a)" " && (b)" rfl (by decide) (by decide)) (by decide)

end CodeConverter.Indent

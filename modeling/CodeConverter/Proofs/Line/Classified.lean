import CodeConverter.Line.Form
import CodeConverter.Proofs.Pattern.Preferred

/-!
# Classified lines

A classified line is matched by the form whose kind it has, or by the form of generic lines if no
form of the grammar matches it. Its remembered pieces are parts of the line.
-/

namespace CodeConverter

open List

variable {form : LineForm} {line : Text} {grammar : List LineForm} {m : Match}

theorem LineForm.classify?_eq_some {l : Classified} (h : form.classify? line = some l) :
    ∃ m, form.pattern.matchStart line = some m ∧
    l = ⟨form.kind, line, form.pattern.groupCount, some m⟩ := by
  obtain ⟨m, hm, rfl⟩ := Option.map_eq_some_iff.mp h
  exact ⟨m, hm, rfl⟩

/-- A line is classified by a form that matches it, or by none. -/
theorem classify_cases (grammar : List LineForm) (line : Text) :
    (∃ form ∈ grammar, ∃ m, form.pattern.matchStart line = some m ∧
      classify grammar line = ⟨form.kind, line, form.pattern.groupCount, some m⟩) ∨
    ((∀ form ∈ grammar, form.pattern.matchStart line = none) ∧
      classify grammar line = ⟨.generic, line, 1, genericForm.matchStart line⟩) := by
  simp only [classify]
  split
  · rename_i l hl
    obtain ⟨form, hmem, hform⟩ := exists_of_findSome?_eq_some hl
    obtain ⟨m, hm, rfl⟩ := LineForm.classify?_eq_some hform
    exact .inl ⟨form, hmem, m, hm, rfl⟩
  · rename_i hnone
    refine .inr ⟨fun form hmem => ?_, rfl⟩
    have hform := findSome?_eq_none_iff.mp hnone form hmem
    simpa [LineForm.classify?] using hform

/-- The first form that matches classifies the line. -/
theorem classify_of_first {after : List LineForm} (before : List LineForm)
    (hgrammar : grammar = before ++ form :: after)
    (hbefore : before.all (fun form => (form.pattern.matchStart line).isNone) = true)
    (hm : form.pattern.matchStart line = some m) :
    (classify grammar line).kind = form.kind ∧ ∀ k,
    (classify grammar line).group? k = m.group? k := by
  have hnone : before.findSome? (·.classify? line) = none := by
    refine findSome?_eq_none_iff.mpr fun other hmem => ?_
    have hother := all_eq_true.mp hbefore other hmem
    rw [LineForm.classify?, Option.isNone_iff_eq_none.mp hother]
    rfl
  have hform : form.classify? line = some ⟨form.kind, line, form.pattern.groupCount, some m⟩ := by
    rw [LineForm.classify?, hm]
    rfl
  rw [hgrammar, classify, findSome?_append, hnone, Option.none_or, findSome?_cons, hform]
  exact ⟨rfl, fun _ => rfl⟩

theorem classify_of_preferred {after : List LineForm} {u : Pattern.State} (before : List LineForm)
    (hgrammar : grammar = before ++ form :: after)
    (hbefore : before.all (fun form => (form.pattern.matchStart line).isNone) = true)
    (hu : form.pattern.first some (.start line) = some u) :
    (classify grammar line).kind = form.kind ∧ ∀ k,
    (classify grammar line).group? k = u.groups.lookup k := by
  obtain ⟨m, hm, hmatch⟩ := Pattern.matchStart_of_first hu
  obtain ⟨hkind, hgroups⟩ := classify_of_first before hgrammar hbefore hm
  exact ⟨hkind, fun k => (hgroups k).trans (hmatch k)⟩

theorem classify_of_none (h : ∀ form ∈ grammar, form.pattern.matchStart line = none) :
    classify grammar line = ⟨.generic, line, 1, genericForm.matchStart line⟩ := by
  rcases classify_cases grammar line with ⟨form, hmem, m, hm, -⟩ | ⟨-, heq⟩
  · rw [h form hmem] at hm
    cases hm
  · exact heq

@[simp] theorem classify_line (grammar : List LineForm) (line : Text) :
    (classify grammar line).line = line := by
  rcases classify_cases grammar line with ⟨form, -, m, -, heq⟩ | ⟨-, heq⟩ <;> rw [heq]

theorem exists_form_of_kind {kind : LineKind} (h : (classify grammar line).kind = kind)
    (hkind : kind ≠ .generic) :
    ∃ form ∈ grammar, form.kind = kind ∧ ∃ m, form.pattern.matchStart line = some m ∧
      (classify grammar line).found = some m := by
  rcases classify_cases grammar line with ⟨form, hmem, m, hm, heq⟩ | ⟨-, heq⟩
  · rw [heq] at h ⊢
    exact ⟨form, hmem, h, m, hm, rfl⟩
  · rw [heq] at h
    exact absurd h.symm hkind

theorem found_matchStart (h : (classify grammar line).found = some m) :
    ∃ p : Pattern, p.matchStart line = some m := by
  rcases classify_cases grammar line with ⟨form, -, m', hm, heq⟩ | ⟨-, heq⟩
  · rw [heq] at h
    obtain rfl : m' = m := by simpa using h
    exact ⟨form.pattern, hm⟩
  · rw [heq] at h
    exact ⟨genericForm, h⟩

/-- A group is a part of the line. -/
theorem classify_group_isInfix (grammar : List LineForm) (line : Text) (k : Nat) :
    (classify grammar line).group k <:+: line := by
  cases hfound : (classify grammar line).found with
  | none =>
    rw [Classified.group, Classified.group?, hfound]
    exact nil_infix
  | some m =>
    obtain ⟨p, hp⟩ := found_matchStart hfound
    have hof := (Pattern.of_matchStart hp).1
    rw [Classified.group, Classified.group?, hfound]
    exact (hof.group_isInfix k).trans hof.whole_isInfix

end CodeConverter

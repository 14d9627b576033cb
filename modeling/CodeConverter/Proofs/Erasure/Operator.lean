import CodeConverter.Proofs.Erasure.Drawn
import CodeConverter.Proofs.Text.Numeral

/-!
# Operators keep numbers short

An optional chain is written with its longer and longer starts, so the digits of a line may be
written many times over. But the starts are separated, and no number gets longer than all the digits
of the line together.
-/

namespace CodeConverter.Erasure

open Text Literal Pattern
open List hiding replace

variable {t g : Text} {c : Char}

/-- The digits of a text and the marks that separate the guards of a chain. -/
def isKept (c : Char) : Bool :=
  isDigit c || c = '&'

/-- Between two marks a text has at most `n` digits. -/
def Sparse (n : Nat) (t : Text) : Prop :=
  ∀ run, run <:+: t.filter isKept → '&' ∉ run → run.length ≤ n

theorem Sparse.numeralsFit {n : Nat} (h : Sparse n t) (hn : n < digitLimit) : NumeralsFit t := by
  refine numeralsFit_of_length fun digits hdigits hall =>
    Nat.lt_of_le_of_lt (h digits ?_ fun hmem => ?_) hn
  · have hkept := hdigits.filter isKept
    rwa [filter_eq_self.mpr fun c hc => by simp [isKept, hall c hc]] at hkept
  · exact absurd (hall '&' hmem) (by decide)

theorem compatible_sparse : Compatible fun out t => Sparse (t.countP isDigit) out where
  nil := fun run hrun _ => by rw [infix_nil.mp hrun]; exact Nat.zero_le _
  append := by
    intro a b c d hab hcd run hrun hmark
    rw [filter_append] at hrun
    rw [countP_append]
    rcases infix_append_iff.mp hrun with hrun | hrun | ⟨left, right, rfl, hleft, hright⟩
    · exact Nat.le_trans (hab run hrun hmark) (Nat.le_add_right _ _)
    · exact Nat.le_trans (hcd run hrun hmark) (Nat.le_add_left _ _)
    · rw [mem_append, not_or] at hmark
      rw [length_append]
      exact Nat.add_le_add (hab left hleft.isInfix hmark.1) (hcd right hright.isInfix hmark.2)

theorem sparse_countP (t : Text) : Sparse (t.countP isDigit) t := by
  intro run hrun hmark
  have hall : ∀ c ∈ run, isDigit c = true := fun c hc => by
    have hkept : isKept c = true := (mem_filter.mp (hrun.subset hc)).2
    have hne : c ≠ '&' := fun heq => hmark (heq ▸ hc)
    simpa [isKept, hne] using hkept
  rw [← countP_eq_length.mpr hall]
  exact (hrun.sublist.trans filter_sublist).countP_le

theorem infix_filter_join {run : Text} {guards : List Text}
    (hrun : run <:+: (join " && " guards).filter isKept)
    (hmark : '&' ∉ run) : run = [] ∨ ∃ g ∈ guards, run <:+: g.filter isKept := by
  rw [filter_join, show (" && ".toList).filter isKept = ['&', '&'] by decide] at hrun
  refine (infix_of_infix_join hrun (by decide) (by simpa using hmark)).imp_right ?_
  rintro ⟨piece, hpiece, hpart⟩
  obtain ⟨g, hg, rfl⟩ := mem_map.mp hpiece
  exact ⟨g, hg, hpart⟩

theorem prefix_of_mem_chainGuards {start : Text} {links : List Text}
    (h : g ∈ chainGuards start links) : g <+: join "." (start :: links) := by
  induction links generalizing start with
  | nil =>
    obtain rfl : g = start := by simpa [chainGuards] using h
    rw [join_singleton]
  | cons link links ih =>
    have hlonger :
        join "." ((start ++ "." ++ link) :: links) = join "." (start :: link :: links) := by
      cases links with
      | nil => simp [join_cons_cons]
      | cons next links => simp only [join_cons_cons, append_assoc]
    rcases mem_cons.mp h with rfl | h
    · rw [join_cons_cons]
      exact prefix_append _ _
    · rw [← hlonger]
      exact ih h

theorem expandChain_cases (chain : Text) :
    expandChain chain = chain ∨ ∃ guards, expandChain chain = "(" ++ join " && " guards ++ ")" ∧
      ∀ g ∈ guards, g <+: replace "?." "." chain := by
  simp only [expandChain]
  split
  · rename_i first link rest heq
    refine .inr ⟨_, rfl, fun g hg => ?_⟩
    simp only [replace, heq]
    exact prefix_of_mem_chainGuards hg
  · exact .inl rfl

theorem drawn_guard {chain : Text} (h : g <+: replace "?." "." chain) : Drawn "." chain g :=
  (drawn_replace chain (by decide) (Subset.refl _)).trans (.of_isInfix h.isInfix)

theorem sparse_expandChain (chain : Text) : Sparse (chain.countP isDigit) (expandChain chain) := by
  rcases expandChain_cases chain with heq | ⟨guards, heq, hguards⟩
  · rw [heq]
    exact sparse_countP chain
  · intro run hrun hmark
    have houter :
        ("(" ++ join " && " guards ++ ")").filter isKept = (join " && " guards).filter isKept := by
      rw [filter_append, filter_append, show ("(".toList).filter isKept = [] by decide,
        show (")".toList).filter isKept = [] by decide, nil_append, append_nil]
    rw [heq, houter] at hrun
    rcases infix_filter_join hrun hmark with rfl | ⟨g, hg, hpart⟩
    · exact Nat.zero_le _
    · exact Nat.le_trans (sparse_countP g run hpart hmark)
        ((drawn_guard (hguards g hg)).countP_le isDigit rfl)

theorem addsOnly_expandChain (chain : Text) :
    AddsOnly "( &).".toList.contains (expandChain chain) chain := by
  rcases expandChain_cases chain with heq | ⟨guards, heq, hguards⟩
  · rw [heq]
    exact .rfl
  · rw [heq]
    refine .enclose (.join rfl fun g hg c hc => ?_) rfl rfl
    exact ((drawn_guard (hguards g hg)).mem hc).imp_right fun h => by simp_all

/-- Quotes, opening braces and colons. -/
def isHeavy (c : Char) : Bool :=
  isQuote c || c = '{' || c = ':'

theorem isHeavy_eq_false {p : Char → Bool} (hp : "\"'`\x7b:".toList.all (fun c => !p c) = true)
    (hc : p c = true) : isHeavy c = false := by
  refine Bool.eq_false_iff.mpr fun h => ?_
  have hmem : c ∈ "\"'`\x7b:".toList := by
    simp only [isHeavy, isQuote, Bool.or_eq_true, decide_eq_true_eq] at h
    rcases h with (((rfl | rfl) | rfl) | rfl) | rfl <;> decide
  exact absurd hc (by simpa using all_eq_true.mp hp c hmem)

theorem countP_expandChains (t : Text) : (expandChains t).countP isHeavy ≤ t.countP isHeavy := by
  refine replaceBy_rel (compatible_countP_le isHeavy) (fun c _ => Nat.le_refl _) fun m hof => ?_
  rw [countP_eq_zero.mpr fun c hc => ?_]
  · exact Nat.zero_le _
  · rw [Bool.not_eq_true]
    rcases addsOnly_expandChain _ c hc with hc | hc
    · exact isHeavy_eq_false (p := fun c => memberChain.uses c) (by decide) (hof.reads.uses hc)
    · exact isHeavy_eq_false (p := "( &).".toList.contains) (by decide) hc

theorem holeOnly_whole {m : Match} (hof : m.Of holeOnly t) :
    m.whole = "`$\x7b" ++ m.group 1 ++ "\x7d`" := by
  rw [append_assoc]
  exact hof.whole_eq

/-- Erasing operators joins no more digits than there are. -/
theorem sparse_stripOperators (t : Text) : Sparse (t.countP isDigit) (stripOperators t) := by
  have hchains : Sparse (t.countP isDigit) (expandChains t) :=
    replaceBy_rel compatible_sparse (fun c _ => sparse_countP [c]) fun m _ =>
      sparse_expandChain m.whole
  have hdefaults :
      (replace "??" "||" (expandChains t)).filter isKept = (expandChains t).filter isKept :=
    replace_rel (compatible_filter_eq isKept) (by decide) (fun _ _ => rfl) (by decide)
  have hholes :
      (stripOperators t).filter isKept = (replace "??" "||" (expandChains t)).filter isKept := by
    refine replaceBy_rel (compatible_filter_eq isKept) (fun _ _ => rfl) fun m hof => ?_
    rw [holeOnly_whole hof, filter_append, filter_append,
      show ("`$\x7b".toList).filter isKept = [] by decide,
          show ("\x7d`".toList).filter isKept = [] by decide,
      nil_append, append_nil]
  intro run hrun
  rw [hholes, hdefaults] at hrun
  exact hchains run hrun

theorem drawn_stripOperators (t : Text) : Drawn "|" (expandChains t) (stripOperators t) :=
  (drawn_replace _).trans (drawn_replaceBy fun _ hof => .of_isInfix (hof.group_isInfix 1))

theorem countP_stripOperators (t : Text) : (stripOperators t).countP isHeavy ≤ t.countP isHeavy :=
  Nat.le_trans ((drawn_stripOperators t).countP_le isHeavy rfl) (countP_expandChains t)

theorem mem_stripOperators (h : c ∈ stripOperators t) : c ∈ t ∨ c ∈ "( &).|".toList := by
  rcases (drawn_stripOperators t).mem h with hc | hc
  · refine (addsOnly_replaceBy (fun m _ => addsOnly_expandChain m.whole) c hc).imp_right
      fun hc => ?_
    exact (by decide : "( &).".toList ⊆ "( &).|".toList) (contains_iff_mem.mp hc)
  · exact .inr ((by decide : "|".toList ⊆ "( &).|".toList) hc)

end CodeConverter.Erasure

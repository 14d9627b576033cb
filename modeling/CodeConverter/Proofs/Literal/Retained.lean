import CodeConverter.Proofs.Literal.Outline

/-!
# What respelling leaves of the literals

A text respelled outside its literals is scanned into as many literals as before. A literal without
holes is the same, and one with holes keeps its quotes.
-/

namespace CodeConverter.Literal

open Pattern List Bool

variable {f : Text → Text} {t : Text} {set : Char → Bool}

/-- What respelling leaves of a literal. -/
structure Retained (old : Bool × Text) (new : Text) : Prop where
  quote : new.head? = old.2.head?
  closed : isClosed new = isClosed old.2
  /-- A literal that is neither marked nor in backticks is not changed. -/
  verbatim : old.1 = false → old.2.head? ≠ some '`' → new = old.2

/-- The respelling of a literal has the same outline and changes nothing but holes. -/
structure Respelt (old : Bool × Text) (new : Text) : Prop where
  outline : outline new = outline old.2
  verbatim : old.1 = false → old.2.head? ≠ some '`' → new = old.2

theorem Respelt.retained {old : Bool × Text} {new : Text} (h : Respelt old new)
    (hliteral : isClosed old.2 = true ∨ isOpen old.2 = true) : Retained old new := by
  refine ⟨?_, ?_, h.verbatim⟩
  · obtain ⟨marked, text⟩ := old
    cases text with
    | nil => rcases hliteral with hclosed | hopen <;> contradiction
    | cons quote body =>
      have hquote : isQuote quote = true := by
        rcases hliteral with hclosed | hopen
        · exact (and_eq_true_iff.mp hclosed).1
        · exact (and_eq_true_iff.mp hopen).1
      have hhard : isHard quote = true := by simp [isHard, hquote]
      obtain ⟨rest, rfl, -⟩ := eq_cons_of_outline hhard (h.outline.trans (outline_hard hhard body))
      rfl
  · rw [Bool.eq_iff_iff]
    exact ⟨(isClosed_of_outline h.outline.symm).1, (isClosed_of_outline h.outline).1⟩

theorem map_literal? (ts : List Token) :
    (ts.filterMap Token.literal?).map Prod.snd = literalTexts ts := by
  induction ts with
  | nil => rfl
  | cons token ts ih =>
    cases token with
    | code c => exact ih
    | literal marked text => exact congrArg (text :: ·) ih

theorem map_literalsOf (t : Text) : (literalsOf t).map Prod.snd = literalTexts (tokens t) :=
  map_literal? (tokens t)

/-- Each literal is kept but for its holes. -/
theorem meets_respellLiterals_respelt {fails : Fault → Prop} {respell : Text → Except Fault Text}
    (ts : List Token) (h : ∀ text ∈ literalTexts ts, ∀ hole, hole <:+: text →
      Meets fails (fun out => outline out = outline hole) (respell hole)) :
    Meets fails (Forall₂ Respelt (ts.filterMap Token.literal?)) (respellLiterals respell ts) := by
  induction ts with
  | nil => exact .ok .nil
  | cons token ts ih =>
    cases token with
    | code c => exact ih h
    | literal marked text =>
      have hrest := ih fun text hmem => h text (mem_cons_of_mem _ hmem)
      have hfirst :=
        meets_respellHoles_rel compatible_outline (fun _ => rfl) marked (h text mem_cons_self)
      refine hfirst.remember.bind fun new hnew => hrest.bind fun literals hliterals => .ok ?_
      refine .cons ⟨hnew.2, fun hmarked hhead => ?_⟩ hliterals
      obtain rfl : marked = false := hmarked
      have hsame := hnew.1
      rw [respellHoles, if_neg hhead] at hsame
      cases hsame
      rfl

theorem outline_getD_of_respelt {olds : List (Bool × Text)} {news : List Text}
    (h : Forall₂ Respelt olds news)
    (n : Nat) : outline (news.getD n []) = outline ((olds.map Prod.snd).getD n []) := by
  induction h generalizing n with
  | nil => rfl
  | cons hfirst _ ih =>
    cases n with
    | zero => exact hfirst.outline
    | succ n => exact ih n

/-- Respelling keeps the outline of a text and retains its literals, down to any depth of holes. -/
theorem meets_respellWithin_respelt (hf : Respelling f) (houtline : ∀ t, outline (f t) = outline t)
    (depth : Nat) (ht : '\x00' ∉ t) : Yields
      (fun out => outline out = outline t ∧
      Forall₂ Respelt (literalsOf t) ((literalsOf out).map Prod.snd))
      (respellWithin f depth t) := by
  induction depth generalizing t with
  | zero =>
    refine .ok ⟨rfl, ?_⟩
    generalize literalsOf t = literals
    induction literals with
    | nil => exact .nil
    | cons l literals ih => exact .cons ⟨rfl, fun _ _ => rfl⟩ ih
  | succ depth ih =>
    have hliterals : Yields (Forall₂ Respelt (literalsOf t))
        (respellLiterals (respellWithin f depth) (tokens t)) := by
      refine meets_respellLiterals_respelt (tokens t) fun text htext hole hhole => ?_
      obtain ⟨token, htoken, rfl⟩ := exists_token_of_mem_literalTexts htext
      have hnull : '\x00' ∉ hole :=
        fun hmem => ht ((hhole.trans (token_isInfix htoken)).subset hmem)
      exact (ih hnull).imp fun out hout => hout.1
    refine hliterals.bind fun literals hrespelt => ?_
    obtain ⟨items, hclean, hrender, hmarks⟩ := hf _ (clean_maskItems ht)
    rw [mask_eq_render, hrender]
    refine (meets_unmask_render hclean).imp ?_
    rintro out rfl
    have hparallel : Parallel items (maskItems 0 (tokens t)) :=
      parallel_of_outline hclean (clean_maskItems ht) hmarks (by rw [← hrender, houtline])
    have hsame := outline_getD_of_respelt hrespelt
    rw [literalsOf, literalsFrom, map_literal?] at hsame
    obtain ⟨hkept, hfillable⟩ := hparallel.fill hsame
    obtain ⟨hfill, hscanned⟩ := fill_tokens t
    refine ⟨hkept.trans (congrArg outline hfill), ?_⟩
    have hlength : literals.length = (tokens t).countP Token.isLiteral := by
      rw [← length_literalTexts, ← map_literal?, length_map]
      exact hrespelt.length_eq.symm
    rw [marks_maskItems, ← hlength] at hmarks
    rw [map_literalsOf_fill hclean (hfillable hscanned) hmarks]
    exact hrespelt

section

variable (hset : ∀ c, set c = true → isQuote c = true)

include hset

theorem countP_literalTexts {ts : List Token}
    (hcode : ∀ c, Token.code c ∈ ts → isQuote c = false) :
    (literalTexts ts).flatten.countP set = (ts.flatMap Token.text).countP set := by
  induction ts with
  | nil => rfl
  | cons token ts ih =>
    have hrest := ih fun c hc => hcode c (mem_cons_of_mem _ hc)
    rw [flatMap_cons, countP_append, ← hrest]
    cases token with
    | code c =>
      have hother : ¬ set c = true := fun hmem => by
        have := hcode c mem_cons_self
        simp [hset c hmem] at this
      rw [Token.text, countP_cons_of_neg hother, countP_nil, Nat.zero_add]
      rfl
    | literal marked text => exact countP_append

theorem countP_literalsOf (t : Text) :
    ((literalsOf t).map Prod.snd).flatten.countP set = t.countP set := by
  have hcode : ∀ c, .code c ∈ tokens t → isQuote c = false :=
    fun c hc => (scanned_tokens t).isQuote hc
  rw [map_literalsOf, countP_literalTexts hset hcode, flatMap_tokens]

/-- Respelling outside literals adds no quotes of any kind. -/
theorem meets_respellWithin_countP
    (hf : Respelling f) (depth : Nat) (ht : '\x00' ∉ t) :
    Yields (fun out => out.countP set ≤ t.countP set) (respellWithin f depth t) := by
  refine meets_respellWithin_rel (compatible_countP_le set) (fun _ => Nat.le_refl _) hf
    (fun hall hclean _ hmarks => ?_) depth ht (.inl fun _ => trivial)
  rw [countP_filled hset hall hclean hmarks]
  exact Nat.le_trans (rel_flatten (compatible_countP_le set) hall)
    (literalTexts_sublist _).countP_le

end

end CodeConverter.Literal

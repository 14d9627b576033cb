import CodeConverter.Proofs.Expression.Respelling
import CodeConverter.Proofs.Literal.Retained

/-!
# Literals and the spelling of operators

Spelling operators as words or as symbols replaces nonempty runs of characters that do not matter to
a scan by others, so it keeps the outline of a text. The literals of an expression are retained by
both.
-/

namespace CodeConverter

open Pattern Literal List

namespace Literal

/-- The characters that matter to a scan. -/
def hardCharacters : Text :=
  ['\x27', '\x22', '`', '\\', '\x00']

theorem isHard_iff {c : Char} : isHard c = true ↔ c ∈ hardCharacters := by
  simp [isHard, isQuote, hardCharacters, or_assoc]

/-- Replacing a pattern that reads characters that do not matter, and at least one, by such
characters keeps the outline. -/
theorem outline_replaceWith {p : Pattern} {new : Text} (hnew : outline new = [' ']) (t : Text)
    (huses : hardCharacters.all (fun c => !p.uses c) = true := by decide)
    (hlength : 0 < p.minLength := by decide) : outline (p.replaceWith new t) = outline t := by
  refine replaceBy_rel compatible_outline (fun _ _ => rfl) fun m hof => ?_
  have hne : m.whole ≠ [] := length_pos_iff.mp (Nat.lt_of_lt_of_le hlength hof.reads.minLength_le)
  rw [hnew, outline_soft hne]
  intro c hc
  rw [Bool.eq_false_iff, ne_eq, isHard_iff]
  intro hhard
  have hunused := all_eq_true.mp huses c hhard
  rw [hof.reads.uses hc] at hunused
  cases hunused

theorem outline_replace {old new : Text} (hold : old ≠ []) (hsame : outline new = outline old)
    (t : Text) : outline (Text.replace old new t) = outline t :=
  replace_rel compatible_outline hold (fun _ _ => rfl) hsame

end Literal

namespace Spelling

theorem outline_toWords (t : Text) : outline (toWords t) = outline t := by
  unfold toWords respellWord
  rw [outline_replaceWith rfl, outline_replaceWith rfl, outline_replaceWith rfl,
    outline_replaceWith rfl,
    outline_replaceWith rfl, outline_replaceWith rfl, outline_replaceWith rfl,
    outline_replace (by decide) (by decide), outline_replace (by decide) (by decide)]

theorem outline_strictEquality (t : Text) : outline (strictEquality t) = outline t := by
  unfold strictEquality
  rw [outline_replaceWith rfl, outline_replaceWith rfl]

theorem outline_toSymbols (strict : Bool) {receiver : Text} (hreceiver : outline receiver = [' '])
    (t : Text) : outline (toSymbols strict receiver t) = outline t := by
  have hequality : ∀ u, outline (if strict then strictEquality u else u) = outline u := by
    intro u
    cases strict
    · rfl
    · exact outline_strictEquality u
  unfold toSymbols respellWord
  rw [outline_replaceWith hreceiver, outline_replaceWith rfl, outline_replaceWith rfl,
    outline_replaceWith rfl,
    outline_replaceWith rfl, outline_replaceWith rfl, outline_replaceWith rfl, hequality,
    outline_replaceWith rfl, outline_replaceWith rfl]

/-- The spellings of operators that conversions use. -/
def spellings : List (Text → Text) :=
  [toWords, toSymbols true "this.", toSymbols false "this.", toSymbols true "$this->",
    toSymbols false "$this->"]

theorem spelling_keeps {f : Text → Text} (h : f ∈ spellings) :
    Respelling f ∧ ∀ t, outline (f t) = outline t := by
  simp only [spellings, mem_cons, not_mem_nil, or_false] at h
  rcases h with rfl | rfl | rfl | rfl | rfl
  · exact ⟨respelling_toWords, outline_toWords⟩
  all_goals exact ⟨respelling_toSymbols _ rfl, outline_toSymbols _ rfl⟩

end Spelling

namespace Literal

/-- Masking and filling in the literals again gives the text, down to any depth of holes. -/
theorem respellWithin_id (depth : Nat) {t : Text} (ht : Maskable t) :
    respellWithin id depth t = .ok t := by
  induction depth generalizing t with
  | zero => rfl
  | succ depth ih =>
    have hliterals :
        Meets (fun _ => False) (fun literals => Forall₂ Eq literals (literalTexts (tokens t)))
        (respellLiterals (respellWithin id depth) (tokens t)) := by
      refine meets_respellLiterals_rel compatible_eq (fun _ => rfl) (tokens t)
        fun text htext hole hhole => ?_
      obtain ⟨token, htoken, rfl⟩ := exists_token_of_mem_literalTexts htext
      rw [ih ((Tame.of_isInfix (hhole.trans (token_isInfix htoken))).maskable ht)]
      exact .ok rfl
    obtain ⟨literals, hsome, hsame⟩ := hliterals.exists_ok
    rw [forall₂_eq_eq_eq] at hsame
    subst hsame
    have hunmask : unmask (literalTexts (tokens t)) (mask 0 (tokens t)) = .ok t := by
      rw [mask_eq_render, unmask_render (clean_maskItems ht.null)]
      · exact congrArg Except.ok (fill_tokens t).1
      · intro n hn
        have hfew := countP_isLiteral_le t
        rw [marks_maskItems, mem_range'_1] at hn
        rw [length_literalTexts]
        have := ht.quotes
        omega
    rw [respellWithin, hsome]
    exact hunmask

end Literal

namespace Spelling

/-- Respelling a text outside its literals succeeds and retains the literals. If nothing is respelt,
the text is the same. -/
theorem respellOutside_retains {t : Text} (ht : Maskable t) : respellOutside id t = .ok t ∧
      ∀ f ∈ spellings, ∃ out, respellOutside f t = .ok out ∧
        Forall₂ Retained (literalsOf t) ((literalsOf out).map Prod.snd) := by
  refine ⟨respellWithin_id _ ht, fun f hf => ?_⟩
  obtain ⟨hrespelling, houtline⟩ := spelling_keeps hf
  obtain ⟨out, hout, -⟩ := Meets.exists_ok (meets_respellOutside hrespelling ht)
  have hrespelt := meets_respellWithin_respelt hrespelling houtline (t.length + 1) ht.null
  rw [respellOutside] at hout
  rw [hout] at hrespelt
  have hliterals : ∀ l ∈ literalsOf t, isClosed l.2 = true ∨ isOpen l.2 = true :=
    fun _ => isClosed_or_isOpen
  have hboth := (forall₂_and_left (literalsOf t) _).mpr ⟨hliterals, hrespelt.of_ok.2⟩
  exact ⟨out, hout, hboth.imp fun _ _ h => h.2.retained h.1⟩

/-- A literal with a hole, one without and one that is left open. -/
theorem respellOutside_retains_holes : let t : Text := "a && `${b || c}` !== '\\'&&' + \"x || y"
    Maskable t ∧ respellOutside id t = .ok t ∧
      ∃ out, respellOutside toWords t = .ok out ∧
        Forall₂ Retained (literalsOf t) ((literalsOf out).map Prod.snd) := by
  intro t
  have ht : Maskable t := ⟨by decide, Nat.le_trans (by decide) Text.ten_le_capacity⟩
  have hall := respellOutside_retains ht
  exact ⟨ht, hall.1, hall.2 toWords mem_cons_self⟩

end Spelling

end CodeConverter

import CodeConverter.Proofs.Expression.Respelling
import CodeConverter.Proofs.Literal.Plain

/-!
# Spelling operators marks no literal

What replaces a match ends in a word character, or the match ends in a blank or a sign, or at the
edge of a word. So no `f` comes to stand free before a literal.
-/

namespace CodeConverter.Spelling

open Pattern Literal Text

theorem keepsUnmarked_of_sign {p : Pattern} {image : Text} (sign : Char)
    (hends : ∀ d, p.endsWith d = true → isBlank d = true ∨ sign = d)
    (hsign : isWord sign = false := by decide)
    (himage : isQuiet image = true := by decide) (hlength : 0 < p.minLength := by decide) :
    KeepsUnmarked (p.replaceWith image) := by
  refine keepsUnmarked_of_endsWith himage hlength fun d hd => ?_
  rcases hends d hd with hblank | rfl
  · exact isWord_eq_false_of_isBlank hblank
  · exact hsign

/-- Spelling with words marks no literal. -/
theorem keepsUnmarked_toWords : KeepsUnmarked toWords := by
  intro t ht
  have hreceiver : KeepsUnmarked ((wordEdge ++ "this.").replaceWith "self.") :=
    keepsUnmarked_of_sign '.' fun d hd =>
      .inr (by simpa [append_eq_seq, Pattern.endsWith] using hd)
  have hnot : KeepsUnmarked (("!" ++ notAhead "=" ++ blanks).replaceWith "not ") :=
    keepsUnmarked_of_sign '!' fun d hd => by
      simpa [append_eq_seq, blanks, many, Pattern.endsWith, Pattern.nullable] using hd
  have hor : KeepsUnmarked ((blanks ++ "||" ++ blanks).replaceWith " or ") :=
    keepsUnmarked_of_sign '|' fun d hd => by
      simpa [append_eq_seq, blanks, many, Pattern.endsWith, Pattern.nullable] using hd
  have hand : KeepsUnmarked ((blanks ++ "&&" ++ blanks).replaceWith " and ") :=
    keepsUnmarked_of_sign '&' fun d hd => by
      simpa [append_eq_seq, blanks, many, Pattern.endsWith, Pattern.nullable] using hd
  refine hreceiver _ ((keepsUnmarked_of_word) _ ?_)
  refine (keepsUnmarked_of_word) _ ?_
  refine (keepsUnmarked_of_word) _ (hnot _ (hor _ (hand _ ?_)))
  refine (keepsUnmarked_replace) _ ?_
  exact (keepsUnmarked_replace) _ ht

theorem keepsUnmarked_strictEquality : KeepsUnmarked strictEquality := by
  intro t ht
  have hunequal : KeepsUnmarked (("!=" ++ notAhead "=").replaceWith "!==") :=
    keepsUnmarked_of_sign '=' fun d hd =>
      .inr (by simpa [append_eq_seq, Pattern.endsWith, Pattern.nullable] using hd)
  have hequal :
      KeepsUnmarked ((notBehind (among "=!<>") ++ "==" ++ notAhead "=").replaceWith "===") :=
    keepsUnmarked_of_sign '=' fun d hd =>
      .inr (by simpa [append_eq_seq, Pattern.endsWith, Pattern.nullable] using hd)
  exact hunequal _ (hequal _ ht)

theorem keepsUnmarked_toSymbols : KeepsUnmarked (toSymbols true "this.") := by
  intro t ht
  have hreceiver : KeepsUnmarked ((wordEdge ++ "self.").replaceWith "this.") :=
    keepsUnmarked_of_sign '.' fun d hd =>
      .inr (by simpa [append_eq_seq, Pattern.endsWith] using hd)
  have hnot : KeepsUnmarked ((wordEdge ++ "not" ++ gap).replaceWith "!") :=
    keepsUnmarked_of_sign '!' fun d hd =>
      .inl (by simpa [append_eq_seq, gap, many1, Pattern.endsWith, Pattern.nullable] using hd)
  refine hreceiver _ ((keepsUnmarked_of_word) _ ?_)
  refine (keepsUnmarked_of_word) _ ?_
  refine (keepsUnmarked_of_word) _ ?_
  refine (keepsUnmarked_of_edge) _ ?_
  refine (keepsUnmarked_of_edge) _ (hnot _ (keepsUnmarked_strictEquality _ ?_))
  refine (keepsUnmarked_of_word) _ ?_
  exact (keepsUnmarked_of_word) _ ht

end CodeConverter.Spelling

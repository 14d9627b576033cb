import CodeConverter.Proofs.Brace.Total

/-!
# Sources within the limits

A line without null characters, with fewer digits than a numeral may have and not too long, has only
pieces that can be visited. The sigils of PHP variables in a literal become braces, at most one pair
for every sigil; everything else in a piece is taken from the line.
-/

namespace CodeConverter.Brace

open Text Literal Pattern Expression.ToPython List

/-- Characters that a prepared piece may have without being in the line. -/
def addedByPreparing : Text := " f{}this.el"

/-- The fields of a PHP literal, written for Python. -/
def fieldsWritten (t : Text) : Text :=
  phpField.replaceBy (fun h => "\x7b" ++ h.group 1 ++ "\x7d") t

theorem drawn_fieldsWritten (t : Text) : Drawn addedByPreparing t (fieldsWritten t) :=
  drawn_replaceBy fun _ hof => .enclose (.of_isInfix (hof.group_isInfix 1)) (by decide) (by decide)

theorem countP_fieldsWritten (t : Text) :
    (fieldsWritten t).countP (· == '{') ≤ t.countP (· == '{') + 1 * t.countP (· == '$') :=
  countP_enclose_le rfl rfl t

theorem interpolatedPhp_whole {t : Text} {m : Match} (hof : m.Of interpolatedPhp t) :
    m.whole = "\"" ++ m.group 1 ++ "\"" := by
  rw [append_assoc]
  exact hof.whole_eq

/-- The literals of a PHP piece, written for Python. -/
def literalsWritten (t : Text) : Text :=
  interpolatedPhp.replaceBy (fun m => "f\"" ++ fieldsWritten (m.group 1) ++ "\"") t

theorem drawn_literalsWritten (t : Text) : Drawn addedByPreparing t (literalsWritten t) := by
  refine drawn_replaceBy fun m hof set hset => ?_
  have hinner := drawn_fieldsWritten (m.group 1) set hset
  have hmark : (['f', '"'] : Text).countP set = (['"'] : Text).countP set :=
    countP_cons_of_neg (by rw [hset 'f' (by decide)]; decide)
  rw [interpolatedPhp_whole hof]
  show ((['f', '"'] : Text) ++ fieldsWritten (m.group 1) ++ ['"']).countP set ≤
    ((['"'] : Text) ++ m.group 1 ++ ['"']).countP set
  simp only [countP_append, hmark]
  omega

theorem countP_literalsWritten (t : Text) :
    (literalsWritten t).countP (· == '{') ≤ t.countP (· == '{') + 1 * t.countP (· == '$') := by
  refine replaceBy_rel (compatible_countP_le_add (· == '{') (· == '$') 1)
    (fun c _ => Nat.le_add_right _ _) fun m hof => ?_
  have hinner := countP_fieldsWritten (m.group 1)
  have hnone : ("f\"".toList).countP (· == '{') = 0 ∧
      ("\"".toList).countP (· == '{') = 0 := by decide
  rw [interpolatedPhp_whole hof]
  simp only [countP_append, hnone.1, hnone.2]
  omega

theorem drawn_withoutSigils (t : Text) :
    Drawn "this.elf" (literalsWritten t) (withoutSigils t) := by
  refine .trans ?_ (drawn_replace _)
  refine .trans ?_ (drawn_replaceBy fun m _ => .of_subset (by decide))
  refine .trans ?_ (drawn_replace _)
  refine .trans ?_ (drawn_replaceBy fun m hof => .of_isInfix (hof.group_isInfix 1))
  exact drawn_replace _

theorem drawn_prepare (c : Conversion) (piece : Text) :
    Drawn addedByPreparing piece (prepare c piece) := by
  simp only [prepare]
  split
  · refine (drawn_literalsWritten piece).trans fun set hset =>
      drawn_withoutSigils piece set fun x hx => hset x ?_
    exact (by decide : "this.elf".toList ⊆ addedByPreparing) hx
  · exact .of_isInfix infix_rfl

theorem count_prepare_le (c : Conversion) (piece : Text) :
    (prepare c piece).count '{' ≤ piece.count '{' + piece.count '$' := by
  simp only [prepare]
  split
  · have hrest := (drawn_withoutSigils piece).count_le (c := '{') (by decide)
    have hliterals := countP_literalsWritten piece
    simp only [← count_eq_countP] at hliterals
    omega
  · exact Nat.le_add_right _ _

theorem drawn_codeOf (c : Conversion) (line : Text) : Drawn [' '] line (codeOf c line) := by
  simp only [codeOf]
  split
  · refine .trans ?_ (.of_isInfix (strip_isInfix _))
    refine .trans ?_ (drawn_replaceBy fun m _ => .of_subset (nil_subset _))
    refine .trans ?_ (drawn_replaceBy fun m _ => .of_subset (nil_subset _))
    exact .of_isInfix (strip_isInfix line)
  · exact .of_isInfix (strip_isInfix line)

/-- A line within the limits is tractable. -/
theorem tractable_of_countP {c : Conversion} {line : Text} (hnull : '\x00' ∉ line)
    (hline : '\n' ∉ line)
    (hdigits : line.countP isDigit < digitLimit) (hlength : 10 * line.length ≤ capacity) :
    Tractable c line := by
  intro piece hpiece
  have hdrawn : Drawn addedByPreparing line piece := fun set hset =>
    ((drawn_codeOf c line).trans (Block.pieceOf_of_mem_split hpiece).drawn) set fun x hx =>
      hset x ((by decide : [' '] ⊆ addedByPreparing) hx)
  have hprepared := hdrawn.trans (drawn_prepare c piece)
  refine ⟨fun hmem => ?_, fun hmem => ?_, ?_, ?_⟩
  · exact (hprepared.mem hmem).elim hnull (by decide)
  · exact (hprepared.mem hmem).elim hline (by decide)
  · exact numeralsFit_of_countP (Nat.lt_of_le_of_lt (hprepared.countP_le isDigit rfl) hdigits)
  · have hquotes := Nat.le_trans (hprepared.countP_le isQuote rfl) countP_le_length
    have hcolons := Nat.le_trans (hprepared.count_le (c := ':') (by decide)) count_le_length
    have hopening := count_prepare_le c piece
    have hdollars := Nat.le_trans (hdrawn.count_le (c := '$') (by decide)) count_le_length
    have hbraces : piece.count '{' ≤ line.length := by
      refine Nat.le_trans ?_ (count_le_length (a := '{'))
      exact ((drawn_codeOf c line).trans (Block.pieceOf_of_mem_split hpiece).drawn).count_le
        (by decide)
    omega

end CodeConverter.Brace

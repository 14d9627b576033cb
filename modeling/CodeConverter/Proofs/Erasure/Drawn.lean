import CodeConverter.Erasure.Scan
import CodeConverter.Proofs.Text.Drawn

/-!
# Erasing annotations adds nothing

Modifiers, casts, marks and annotations are cut out of a line. What is written in their place
consists of a few fixed characters, so a line without annotations has no more digits, quotes, braces
and colons than before.
-/

namespace CodeConverter.Erasure

open Text Literal Pattern List

/-- The characters that are written where something was cut out. -/
def addedByErasing : Text := " ,;()catch"

/-- Those of them that are written into a signature. -/
def addedToSignature : Text := " ,)"

theorem drawn_stripWords (t : Text) : Drawn addedByErasing t (stripWords t) := by
  have hdelete : ∀ (p : Pattern) (u : Text), Drawn addedByErasing u (p.replaceWith [] u) :=
    fun p u =>
    drawn_replaceBy fun _ _ => .of_subset (nil_subset _)
  simp only [stripWords]
  refine .trans ?_ (drawn_replaceBy fun m hof => ?_)
  · refine .trans ?_ (hdelete _ _)
    refine .trans (x := typeParameters.replaceBy (·.group 1)
      (implementsClause.replaceWith [] (modifierWord.replaceWith [] t))) ?_ ?_
    · refine .trans ?_ (drawn_replaceBy fun m hof => .of_isInfix (hof.group_isInfix 1))
      exact (hdelete _ _).trans (hdelete _ _)
    · split
      · exact .of_isInfix infix_rfl
      · exact hdelete _ _
  · exact .enclose (.of_isInfix (hof.group_isInfix 1)) (by decide) (by decide)

theorem countP_splitTopLevelFrom_le (set : Char → Bool) (depth : Int) (quote : Option Char)
    (current t : Text) :
    (splitTopLevelFrom depth quote current t).flatten.countP set ≤
    current.countP set + t.countP set := by
  fun_induction splitTopLevelFrom depth quote current t with
  | case1 => simp
  | case2 => simp
  | case3 depth current q c t ih | case4 depth current t ih =>
    simp only [countP_cons] at *
    omega
  | case5 depth current c t harrow hcond ih =>
    simp only [flatten_cons, countP_append, countP_reverse, countP_cons, countP_nil] at *
    omega
  | case6 depth current c t harrow hcond change ih =>
    simp only [countP_cons] at *
    omega

theorem length_splitTopLevelFrom_le (depth : Int) (quote : Option Char) (current t : Text) :
    (splitTopLevelFrom depth quote current t).length ≤ t.length + 1 := by
  fun_induction splitTopLevelFrom depth quote current t <;>
    simp only [length_cons, length_nil] at * <;> omega

theorem drawn_of_mem_splitTopLevel {t p : Text} (h : p ∈ splitTopLevel t) : Drawn [] t p :=
  fun set _ => by
  have hparts := countP_splitTopLevelFrom_le set 0 none [] t
  rw [countP_nil, Nat.zero_add] at hparts
  exact Nat.le_trans (sublist_flatten_of_mem h).countP_le hparts

theorem drawn_join_splitTopLevel {f : Text → Text} (hf : ∀ p, Drawn addedToSignature p (f p))
    (t : Text) : Drawn addedToSignature t (join ", " ((splitTopLevel t).map f)) := by
  intro set hset
  have hsep : (", ".toList).countP set = 0 :=
    Nat.le_zero.mp (Drawn.of_subset (u := []) (by decide) set hset)
  have hparts := countP_splitTopLevelFrom_le set 0 none [] t
  rw [countP_nil, Nat.zero_add] at hparts
  rw [countP_join hsep]
  refine Nat.le_trans (m := (splitTopLevel t).flatten.countP set) ?_ hparts
  induction splitTopLevel t with
  | nil => exact Nat.le_refl _
  | cons p pieces ih =>
    rw [map_cons, flatten_cons, flatten_cons, countP_append, countP_append]
    exact Nat.add_le_add (hf p set hset) ih

/-- The annotation of a parameter is cut out. -/
theorem drawn_stripParameterFrom (whole : Text) (depth : Int) (seen t : Text)
    (hwhole : seen.reverse ++ t = whole) :
    Drawn addedToSignature whole (stripParameterFrom whole depth seen t) := by
  induction t generalizing depth seen with
  | nil => exact .of_isInfix (dropEndWhile_isPrefix _ _).isInfix
  | cons c t ih =>
    have hnext : (c :: seen).reverse ++ t = whole := by simpa using hwhole
    simp only [stripParameterFrom]
    split
    · exact ih _ _ hnext
    split
    · exact ih _ _ hnext
    split
    · exact .of_isInfix infix_rfl
    split
    · have hname : withoutMarks (stripEnd seen.reverse) <:+: seen.reverse :=
        ((dropEndWhile_isPrefix _ _).trans (stripEnd_isPrefix _)).isInfix
      have hdefault : strip (afterType t) <:+: t :=
        (strip_isInfix _).trans (drop_suffix _ _).isInfix
      subst hwhole
      split
      · exact .of_isInfix (hname.trans (prefix_append _ _).isInfix)
      · intro set hset
        have hfirst := hname.sublist.countP_le (p := set)
        have hsecond := hdefault.sublist.countP_le (p := set)
        have hblank : (" ".toList).countP set = 0 := by
          simp [hset ' ' (by decide)]
        simp only [countP_append, countP_cons, hblank]
        omega
    · exact ih _ _ hnext

theorem drawn_stripParameter (t : Text) : Drawn addedToSignature t (stripParameter t) :=
  (Drawn.of_isInfix (strip_isInfix t)).trans (drawn_stripParameterFrom _ 0 [] _ rfl)

theorem drawn_stripParameters (t : Text) : Drawn addedToSignature t (stripParameters t) :=
  drawn_join_splitTopLevel drawn_stripParameter t

theorem cutResult_snd_suffix (after : Text) : (cutResult after).2 <:+ after := by
  simp only [cutResult]
  split
  · rename_i t heq
    refine ((stripStart_suffix _).trans ((drop_suffix _ _).trans (suffix_cons ':' t))).trans ?_
    rw [← heq]
    exact stripStart_suffix after
  · exact stripStart_suffix after

theorem drawn_stripAfter (head tail : Text) (close : Nat) :
    Drawn addedToSignature tail (stripAfter head tail close) := by
  simp only [stripAfter]
  split
  · refine .trans ?_ (.of_isInfix (stripEnd_isPrefix _).isInfix)
    intro set hset
    have hparameters := drawn_stripParameters (tail.take close) set hset
    have hrest := (cutResult_snd_suffix (tail.drop (close + 1))).sublist.countP_le (p := set)
    have hmiddle : (") ".toList).countP set = 0 :=
      Nat.le_zero.mp (Drawn.of_subset (u := []) (by decide) set hset)
    have hdropped := (drop_suffix 1 (tail.drop close)).sublist.countP_le (p := set)
    rw [drop_drop] at hdropped
    have hparts := congrArg (countP set) (take_append_drop close tail)
    simp only [countP_append] at *
    omega
  · exact .of_isInfix infix_rfl

theorem cutParenthesis_append {t head tail : Text} (h : cutParenthesis t = some (head, tail)) :
    head ++ tail = t := by
  simp only [cutParenthesis] at h
  split at h
  · cases h
  · rename_i c rest heq
    obtain ⟨rfl, rfl⟩ := Prod.mk.inj (Option.some.inj h)
    rw [append_assoc, singleton_append, ← heq]
    exact takeWhile_append_dropWhile

/-- Erasing signatures adds listed characters only. -/
theorem drawn_stripSignaturesFrom (n : Nat) (head tail : Text) :
    Drawn addedToSignature (head ++ tail) (stripSignaturesFrom n head tail) := by
  have hkeep : ∀ {head tail tail' : Text}, Drawn addedToSignature tail tail' →
      Drawn addedToSignature (head ++ tail) (head ++ tail') := fun {head _ _} h =>
    (compatible_drawn addedToSignature).append (.of_isInfix (infix_refl head)) h
  induction n generalizing head tail with
  | zero => exact .of_isInfix infix_rfl
  | succ n ih =>
    simp only [stripSignaturesFrom]
    split
    · exact .of_isInfix infix_rfl
    · rename_i close _
      have hafter := @hkeep head _ _ (drawn_stripAfter head tail close)
      split
      · exact hafter
      · rename_i next rest hcut
        refine hafter.trans ?_
        rw [← cutParenthesis_append hcut, ← append_assoc]
        exact ih _ _

theorem drawn_stripSignatures (t : Text) : Drawn addedToSignature t (stripSignatures t) := by
  simp only [stripSignatures]
  split
  · exact .of_isInfix infix_rfl
  · rename_i head tail hcut
    rw [← cutParenthesis_append hcut]
    exact drawn_stripSignaturesFrom _ _ _

theorem drawn_stripVariable (t : Text) (colon : Nat) :
    Drawn addedByErasing t (stripVariable t colon) := by
  intro set hset
  have hfront := (stripEnd_isPrefix (t.take colon)).sublist.countP_le (p := set)
  have hback : stripStart (t.drop (typeEnd t (colon + 1) false)) <:+ t.drop colon := by
    refine (stripStart_suffix _).trans ?_
    have hend :
        typeEnd t (colon + 1) false = colon + (1 + typeLength false 0 (t.drop (colon + 1))) := by
      simp only [typeEnd]
      omega
    rw [hend, ← drop_drop]
    exact drop_suffix _ _
  have hrest := hback.sublist.countP_le (p := set)
  have hparts := congrArg (countP set) (take_append_drop colon t)
  have hblank : (" ".toList).countP set = 0 := by simp [hset ' ' (by decide)]
  simp only [stripVariable]
  split
  all_goals
    simp only [countP_append] at *
    simp only [hblank, String.toList_empty, countP_nil]
    omega

theorem drawn_stripVariables (t : Text) : Drawn addedByErasing t (stripVariables t) := by
  simp only [stripVariables]
  induction annotatedVariable.allMatches t with
  | nil => exact .of_isInfix infix_rfl
  | cons m found ih => exact ih.trans (drawn_stripVariable _ _)

theorem drawn_stripProperty (t : Text) : Drawn addedByErasing t (stripProperty t) := by
  simp only [stripProperty]
  split
  · exact .of_isInfix infix_rfl
  · rename_i m hm
    split
    · have hname : m.group 1 <:+: t :=
        ((of_matchStart hm).1.group_isInfix 1).trans (of_matchStart hm).1.whole_isInfix
      split
      · exact .enclose (a := []) (.of_isInfix hname) (nil_subset _) (by decide)
      · have hvalue : strip (afterType (t.drop m.stop)) <:+: t.drop m.stop :=
          (strip_isInfix _).trans (drop_suffix _ _).isInfix
        intro set hset
        have hfirst := ((of_matchStart hm).1.group_isInfix 1).sublist.countP_le (p := set)
        have hsecond := hvalue.sublist.countP_le (p := set)
        have hparts := congrArg (countP set) (whole_append_drop_stop hm)
        have hblank : (" ".toList).countP set = 0 := by simp [hset ' ' (by decide)]
        simp only [countP_append, hblank] at *
        omega
    · exact .of_isInfix infix_rfl

/-- Erasing annotations adds listed characters only. -/
theorem drawn_stripAnnotations (s : State) (t : Text) :
    Drawn addedByErasing t (stripAnnotations s t).2 := by
  simp only [stripAnnotations]
  split
  · split
    · have hopened : Drawn addedByErasing t ("(" ++ t) := by
        simpa using Drawn.enclose (a := "(") (b := []) (Drawn.of_isInfix (infix_refl t)) (by decide)
          (nil_subset _)
      refine (hopened.trans ((drawn_stripSignatures _).mono (by decide))).trans (.of_isInfix ?_)
      exact ((stripStart_suffix _).trans (drop_suffix _ _)).isInfix
    · have hstripped : Drawn addedByErasing t (stripParameter (dropEndWhile (· = ',') t)) :=
        (Drawn.of_isInfix (dropEndWhile_isPrefix _ t).isInfix).trans
          ((drawn_stripParameter _).mono (by decide))
      split
      · exact .enclose (a := []) hstripped (nil_subset _) (by decide)
      · exact hstripped
  · split
    · exact .of_isInfix infix_rfl
    · exact (((drawn_stripSignatures t).mono (by decide)).trans (drawn_stripVariables _)).trans
        (drawn_stripProperty _)

end CodeConverter.Erasure

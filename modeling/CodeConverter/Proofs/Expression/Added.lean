import CodeConverter.Proofs.Expression.Total
import CodeConverter.Proofs.Text.Balance

/-!
# The characters that respelling adds

A respelled expression has the characters of the expression and some fixed ones. None of these is a
brace or a line feed, so an expression without braces stays without them and one on a single line
stays on it. This holds whatever the expression is, as long as it can be respelled at all.
-/

namespace CodeConverter

open Pattern Text List

/-- The characters that are neither braces nor line feeds. -/
def isOrdinary (c : Char) : Bool :=
  !isBrace c && c ≠ '\n'

variable {new : Char → Bool} {out mid t u : Text} {p : Pattern}

namespace Literal

variable {f : Text → Text} {fails : Fault → Prop}

/-- Masking adds null characters and digits only. -/
theorem mem_mask {n : Nat} {ts : List Token} {c : Char} (h : c ∈ mask n ts) :
    c ∈ ts.flatMap Token.text ∨ c = '\x00' ∨ c.isDigit = true := by
  induction ts generalizing n with
  | nil => cases h
  | cons token ts ih =>
    rw [flatMap_cons, mem_append]
    cases token with
    | code d =>
      rcases mem_cons.mp h with rfl | hmem
      · exact .inl (.inl (mem_singleton_self _))
      · exact (ih hmem).imp_left .inr
    | literal marked text =>
      rcases mem_append.mp h with htoken | hmem
      · refine .inr ?_
        simp only [maskToken, mem_cons, mem_append, not_mem_nil, or_false] at htoken
        rcases htoken with hnull | hdigit | hnull
        · exact .inl hnull
        · exact .inr (isDigit_of_mem_decimal hdigit)
        · exact .inl hnull
      · exact (ih hmem).imp_left .inr

theorem meets_unmask_addsOnly {literals : List Text} (h : ∀ l ∈ literals, l.all new = true)
    (t : Text) : Yields (fun out => AddsOnly new out t) (unmask literals t) := by
  refine tryReplaceBy_rel (compatible_addsOnly new) (fun _ _ => .rfl) fun m _ => ?_
  unfold unmaskOne
  cases Text.readNat (m.group 1) with
  | error fault => exact .error trivial
  | ok n =>
    dsimp only [bind, Except.bind]
    cases hlookup : literals[n]? with
    | none => exact .error trivial
    | some l => exact .ok (.fixed (h l (mem_of_getElem? hlookup)))

/-- Respelling outside literals adds what respelling the code adds. -/
theorem meets_respellOutside_addsOnly
    (hnew : ∀ c : Char, c = '\x00' ∨ c.isDigit = true → new c = true)
    (hf : ∀ t, AddsOnly new (f t) t) (t : Text) :
    Yields (fun out => AddsOnly new out t) (respellOutside f t) := by
  suffices h :
      ∀ depth t, Yields (fun out => AddsOnly new out t) (respellWithin f depth t) from h _ t
  intro depth
  induction depth with
  | zero => exact fun t => .ok .rfl
  | succ depth ih =>
    intro t
    have hliterals := meets_respellLiterals_rel (compatible_addsOnly new) (fun c => .rfl) (tokens t)
      fun text _ hole _ => ih hole
    refine hliterals.bind fun literals hall => ?_
    have hadded : ∀ l ∈ literals, l.all (fun c => t.contains c || new c) = true := by
      intro l hl
      obtain ⟨text, htext, hrel⟩ := exists_of_mem_left hall hl
      obtain ⟨token, htoken, rfl⟩ := exists_token_of_mem_literalTexts htext
      have hin := hrel.trans (.of_subset (token_isInfix htoken).subset)
      exact all_eq_true.mpr fun c hc => by simpa using hin c hc
    have hmasked : AddsOnly new (f (mask 0 (tokens t))) t := by
      refine (hf _).trans fun c hc => ?_
      rcases mem_mask hc with hin | hother
      · rw [flatMap_tokens] at hin
        exact .inl hin
      · exact .inr (hnew c hother)
    refine (meets_unmask_addsOnly hadded _).imp fun out hout c hc => ?_
    rcases hout c hc with hin | hin
    · exact hmasked c hin
    · simpa using hin

end Literal

theorem meets_outside_addsOnly {f : Text → Text} (hf : ∀ t, AddsOnly isOrdinary (f t) t)
    (t : Text) : Yields (fun out => AddsOnly isOrdinary out t) (Literal.respellOutside f t) := by
  refine Literal.meets_respellOutside_addsOnly (fun c hc => ?_) hf t
  rcases hc with rfl | hdigit
  · rfl
  · rcases brace_cases c with rfl | rfl | hother
    · cases hdigit
    · cases hdigit
    · have hne : c ≠ '\n' := by
        rintro rfl
        cases hdigit
      simp only [isOrdinary, hother, hne, decide_true, Bool.not_false, Bool.and_self, ne_eq,
        not_false_eq_true]

namespace Spelling

theorem addsOnly_toWords (t : Text) : AddsOnly isOrdinary (toWords t) t := by
  unfold toWords
  iterate 6 refine .replacedWith rfl ?_
  refine .replacedWith (by decide) (.replaced (by decide) ?_)
  exact addsOnly_replace _ (by decide)

theorem addsOnly_toSymbols (strict : Bool) {receiver : Text} (h : receiver.all isOrdinary = true)
    (t : Text) : AddsOnly isOrdinary (toSymbols strict receiver t) t := by
  have hstrict : ∀ t, AddsOnly isOrdinary (if strict then strictEquality t else t) t := by
    intro t
    split
    · exact .replacedWith rfl (addsOnly_replaceWith _ _ rfl)
    · exact .rfl
  unfold toSymbols
  refine .replacedWith h ?_
  iterate 6 refine .replacedWith rfl ?_
  refine (hstrict _).trans ?_
  exact .replacedWith rfl (addsOnly_replaceWith _ _ rfl)

end Spelling

namespace Literal

theorem addsOnly_markedToBacktick (t : Text) : AddsOnly isOrdinary (markedToBacktick t) t := by
  have hholes :
      ∀ u, AddsOnly isOrdinary (braceField.replaceBy (fun h => "$\x7b" ++ h.group 1 ++ "\x7d") u)
      u := by
    intro u
    refine addsOnly_replaceBy fun h hof => ?_
    intro c hc
    rw [hof.whole_eq]
    rcases mem_cons.mp hc with rfl | hmem
    · exact .inr rfl
    · have hrest : c ∈ "\x7b" ++ h.group 1 ++ "\x7d" := hmem
      rw [append_assoc] at hrest
      exact .inl hrest
  refine addsOnly_replaceBy fun m hof => .enclose ?_ rfl rfl
  exact (hholes _).trans (.of_subset (hof.group_isInfix 2).subset)

theorem addsOnly_markedToConcatenation {joiner : Text} (h : joiner.all isOrdinary = true)
    (t : Text) : AddsOnly isOrdinary (markedToConcatenation joiner t) t := by
  refine addsOnly_replaceBy fun m hof c hc => ?_
  rcases mem_concatenation hc with hin | hjoiner | rfl
  · exact .inl ((hof.group_isInfix 2).subset hin)
  · exact .inr (all_eq_true.mp h c hjoiner)
  · exact .inr rfl

theorem addsOnly_backtickToMarked (t : Text) : AddsOnly isOrdinary (backtickToMarked t) t := by
  have hholes : ∀ u, AddsOnly isOrdinary (dollarToBrace u) u := by
    intro u
    refine addsOnly_replaceBy fun h hof => ?_
    rw [hof.whole_eq]
    exact .of_subset (subset_cons_self _ _)
  refine addsOnly_replaceBy fun m hof => .enclose ?_ rfl rfl
  exact (hholes _).trans (.of_subset (hof.group_isInfix 1).subset)

end Literal

theorem toLower_range {d : Char} (h : d.isUpper = true) : 97 ≤ d.toLower.val.toNat ∧
    d.toLower.val.toNat ≤ 122 := by
  have hrange : d.val ≥ 'A'.val ∧ d.val ≤ 'Z'.val := of_decide_eq_true h
  have hlow : 65 ≤ d.val.toNat := hrange.1
  have hhigh : d.val.toNat ≤ 90 := hrange.2
  have hstep : (32 : UInt32).toNat = 32 := rfl
  unfold Char.toLower
  rw [dif_pos hrange]
  show 97 ≤ (d.val + 32).toNat ∧ (d.val + 32).toNat ≤ 122
  rw [UInt32.toNat_add]
  omega

namespace Expression

theorem ToPython.meets_ofJavaScript_addsOnly (t : Text) :
    Yields (fun out => AddsOnly isOrdinary out t) (ToPython.ofJavaScript t) := by
  have hcalls : ∀ t, AddsOnly isOrdinary (ToPython.javascriptCalls t) t := fun t =>
    .replaced (by decide) (addsOnly_group 1 t (by decide))
  have hnew : ∀ t, AddsOnly isOrdinary (ToPython.dropNew t) t :=
    fun t => addsOnly_replaceWith _ t rfl
  refine .bind ?_ fun mid hmid => (meets_outside_addsOnly hcalls mid).imp fun _ hout =>
    hout.trans hmid
  refine (meets_outside_addsOnly hnew _).bind fun mid hmid => ?_
  refine (meets_outside_addsOnly Spelling.addsOnly_toWords mid).imp fun _ hout => hout.trans ?_
  exact hmid.trans (Literal.addsOnly_backtickToMarked t)

/-- C# expressions respelled for JavaScript stay within their lines. -/
theorem ToJavaScript.addsOnly_ofCSharp (t : Text) :
    AddsOnly (fun c => c ≠ '\n') (ToJavaScript.ofCSharp t) t := by
  have hliteral : ∀ t, AddsOnly (fun c => c ≠ '\n')
      (interpolated.replaceBy (fun m => "`" ++ interpolatedField.replaceBy
      (fun h => "$\x7b" ++ h.group 1 ++ "\x7d") (m.group 1) ++ "`") t) t := fun t =>
    addsOnly_replaceBy fun m hm => ((addsOnly_group 1 _ (by decide)).trans
      (.of_subset (hm.group_isInfix 1).subset)).enclose rfl rfl
  have hmath : ∀ t, AddsOnly (fun c => c ≠ '\n')
      ((wordEdge ++ "Math." ++ group 1 (.char Char.isUpper)).replaceBy
      (fun m => "Math." ++ (m.group 1).map Char.toLower) t) t := by
    refine fun t => addsOnly_replaceBy fun m hm => .append (.fixed rfl) fun c hc => ?_
    obtain ⟨d, hd, rfl⟩ := mem_map.mp hc
    have hupper : d.isUpper = true := by
      simpa [HAppend.hAppend, Append.append, Pattern.inside, wordEdge,
        Pattern.uses] using hm.inside hd
    refine .inr (decide_eq_true fun hbreak => ?_)
    have hlow := (toLower_range hupper).1
    rw [hbreak] at hlow
    exact absurd hlow (by decide)
  unfold ToJavaScript.ofCSharp
  refine .replaced (by decide) (.replaced (by decide) ?_)
  refine .replaced (by decide) (.replaced (by decide) ?_)
  refine .replaced (by decide) (.replacedWith (by decide) ?_)
  refine .replacedWith rfl (.replacedWith rfl ((hmath _).trans ?_))
  refine .replacedWith rfl (.replacedWith rfl ?_)
  refine .replacedWith (by decide) ((addsOnly_group 1 _ (by decide)).trans ?_)
  exact (addsOnly_group 1 _ (by decide)).trans (hliteral t)

theorem ToJavaScript.meets_ofPython_addsOnly (t : Text) :
    Yields (fun out => AddsOnly isOrdinary out t) (ToJavaScript.ofPython t) := by
  have hcalls : ∀ t, AddsOnly isOrdinary (ToJavaScript.pythonCalls t) t := by
    intro t
    refine .replaced (by decide) ((addsOnly_group 1 _ (by decide)).trans ?_)
    exact addsOnly_replaceBy fun m hof =>
      (AddsOnly.of_subset (hof.group_isInfix 1).subset).append (.fixed rfl)
  have hmarked := Literal.addsOnly_markedToBacktick t
  refine (meets_outside_addsOnly (Spelling.addsOnly_toSymbols true rfl) _).bind fun mid hmid => ?_
  exact (meets_outside_addsOnly hcalls mid).imp fun _ hout => hout.trans (hmid.trans hmarked)

theorem ToJava.meets_ofPython_addsOnly (t : Text) :
    Yields (fun out => AddsOnly isOrdinary out t) (ToJava.ofPython t) := by
  have hcalls : ∀ t, AddsOnly isOrdinary (ToJava.pythonCalls t) t := by
    intro t
    refine .replaced (by decide) ((addsOnly_group 1 _ (by decide)).trans ?_)
    exact addsOnly_replaceBy fun m hof =>
      (AddsOnly.of_subset (hof.group_isInfix 1).subset).append (.fixed rfl)
  have hquoted :
      AddsOnly isOrdinary (ToJava.doubleQuoted (Literal.markedToConcatenation " + " t)) t :=
    (addsOnly_group 1 _ (by decide)).trans (Literal.addsOnly_markedToConcatenation (by decide) t)
  refine (meets_outside_addsOnly (Spelling.addsOnly_toSymbols false rfl) _).bind fun mid hmid => ?_
  exact (meets_outside_addsOnly hcalls mid).imp fun _ hout => hout.trans (hmid.trans hquoted)

theorem ToPhp.addsOnly_array (contents : Text) :
    AddsOnly isOrdinary (ToPhp.array contents) contents := by
  refine AddsOnly.enclose (.join rfl fun piece hpiece => ?_) rfl rfl
  obtain ⟨entry, hentry, rfl⟩ := mem_map.mp hpiece
  have hin : entry <:+: contents := infix_of_mem_splitArguments hentry
  have hkey : strip (cut ':' entry).1 <:+: entry :=
    (strip_isInfix _).trans (cut_fst_isPrefix ':' entry).isInfix
  have hvalue : strip (cut ':' entry).2 <:+: entry :=
    (strip_isInfix _).trans (cut_snd_suffix ':' entry).isInfix
  refine (AddsOnly.append ?_ (.fixed rfl)).append ?_
  · exact .of_subset (hkey.trans hin).subset
  · exact .of_subset (hvalue.trans hin).subset

/-- Python expressions respelled for PHP. -/
theorem ToPhp.meets_ofPython_addsOnly (known : Text → Bool) (t : Text) :
    Yields (fun out => AddsOnly isOrdinary out t) (ToPhp.ofPython known t) := by
  have hsigils : ∀ t, AddsOnly isOrdinary (ToPhp.sigils known t) t := by
    intro t
    refine .replacedWith rfl (addsOnly_replaceBy fun m hof => ?_)
    have hgroup : AddsOnly isOrdinary (m.group 1) m.whole := .of_subset (hof.group_isInfix 1).subset
    split
    · exact .append (.fixed rfl) hgroup
    · exact hgroup
  have harrays : ∀ t : Text, AddsOnly isOrdinary
      (if t.contains ':' then ToPhp.arrays t else replace "{}" "array()" t) t := by
    intro t
    split
    · exact addsOnly_replaceBy fun m hof =>
        (ToPhp.addsOnly_array _).trans (.of_subset (hof.group_isInfix 1).subset)
    · exact addsOnly_replace _ (by decide)
  have happend : ∀ t, AddsOnly isOrdinary (ToPhp.appendCall.replaceBy
      (fun m => "array_push(" ++ m.group 1 ++ ", " ++ m.group 2 ++ ")") t) t := fun t =>
    addsOnly_replaceBy fun m hof =>
      (((AddsOnly.of_subset (hof.group_isInfix 1).subset).enclose rfl rfl).append
        (.of_subset (hof.group_isInfix 2).subset)).append (.fixed rfl)
  have hconcatenated : AddsOnly isOrdinary (Literal.markedToConcatenation " . " t) t :=
    Literal.addsOnly_markedToConcatenation rfl t
  refine (meets_outside_addsOnly (Spelling.addsOnly_toSymbols false rfl) _).bind fun mid hmid => ?_
  refine (meets_outside_addsOnly hsigils mid).bind fun out hout => .ok ?_
  refine (happend _).trans (.replacedWith rfl ?_)
  refine .replacedWith rfl ((harrays _).trans ?_)
  exact hout.trans (hmid.trans hconcatenated)

end Expression

theorem Indent.Conversion.meets_expression_addsOnly (c : Conversion) (known : Text → Bool)
    (t : Text) : Yields (fun out => AddsOnly isOrdinary out t) (c.expression known t) := by
  cases c
  case plain => exact meets_outside_addsOnly (Spelling.addsOnly_toSymbols false rfl) t
  case toJavaScript => exact Expression.ToJavaScript.meets_ofPython_addsOnly t
  case toTypeScript => exact Expression.ToJavaScript.meets_ofPython_addsOnly t
  case toJava => exact Expression.ToJava.meets_ofPython_addsOnly t
  case toPhp => exact Expression.ToPhp.meets_ofPython_addsOnly known t

end CodeConverter

import CodeConverter.Expression.ToJava
import CodeConverter.Expression.ToPhp
import CodeConverter.Proofs.Literal.Outside

/-!
# The respellings of expressions keep tokens

Every function that is applied to the code outside literals sends masked texts to masked texts with
the same tokens.
-/

namespace CodeConverter

open Pattern Literal List

variable {c : Char}

namespace Spelling

theorem respelling_toWords : Respelling toWords := by
  intro items hclean
  refine .replaced (by decide) ?_
  refine .replaced (by decide) ?_
  refine .replaced (by decide) ?_
  refine .replaced (by decide) ?_
  refine .replaced (by decide) ?_
  refine .replaced (by decide) ?_
  refine .replaced (by decide) ?_
  refine (respelling_replace (by decide)).apply ?_
  exact (respelling_replace (by decide)).apply (.refl hclean)

theorem respelling_strictEquality : Respelling strictEquality := by
  intro items hclean
  refine .replaced (by decide) ?_
  exact .replaced (by decide) (.refl hclean)

/-- Words are respelled as symbols outside of literals only. -/
theorem respelling_toSymbols (strict : Bool) {receiver : Text}
    (hreceiver : receiver.all isClean = true) : Respelling (toSymbols strict receiver) := by
  intro items hclean
  have hequality : ∀ t, Respelled items t →
      Respelled items (if strict then strictEquality t else t) := by
    intro t ht
    cases strict
    · exact ht
    · exact respelling_strictEquality.apply ht
  refine .replaced ⟨by decide, by decide, hreceiver⟩ ?_
  refine .replaced (by decide) ?_
  refine .replaced (by decide) ?_
  refine .replaced (by decide) ?_
  refine .replaced (by decide) ?_
  refine .replaced (by decide) ?_
  refine .replaced (by decide) (hequality _ ?_)
  refine .replaced (by decide) ?_
  exact .replaced (by decide) (.refl hclean)

end Spelling

namespace Expression

theorem isClean_of_wordOr (h : wordOr "." c = true) : isClean c = true := by
  by_contra hne
  simp only [isClean, isQuote, Bool.and_eq_true, decide_eq_true_eq, Bool.not_eq_true',
    Bool.or_eq_false_iff, decide_eq_false_iff_not, not_and_or, not_not] at hne
  rcases hne with rfl | (rfl | rfl) | rfl <;> exact absurd h (by decide)

theorem ToPython.respelling_dropNew : Respelling ToPython.dropNew :=
  respelling_replaceWith (by decide)

theorem respelling_group {p : Pattern} {a b : Text}
    (h : p.uses '\x00' = false ∧ p.needs isSolid = true ∧
    a.all isClean = true ∧ b.all isClean = true) :
    Respelling (p.replaceBy fun m => a ++ m.group 1 ++ b) := by
  refine respelling_of_clear h.1 (fun _ _ hof => hof.reads.needs h.2.1) ?_
  intro subject m hof c hc
  simp only [mem_append] at hc
  rcases hc with (hc | hc) | hc
  · exact .inr (all_eq_true.mp h.2.2.1 c hc)
  · exact .inl ((hof.group_isInfix 1).subset hc)
  · exact .inr (all_eq_true.mp h.2.2.2 c hc)

theorem ToPython.respelling_lengthMember : Respelling ToPython.lengthMember :=
  respelling_group (by decide)

theorem ToPython.respelling_javascriptCalls : Respelling ToPython.javascriptCalls := by
  intro items hclean
  refine (respelling_replace (by decide)).apply ?_
  exact ToPython.respelling_lengthMember.apply (.refl hclean)

/-- Writing the members of Java objects in their other form is a respelling. -/
theorem ToPython.respelling_javaCalls : Respelling ToPython.javaCalls := by
  have hlength : Respelling ((ToPython.chain ++ "." ++ keyword ["length", "size"] ++ "()").replaceBy
      fun m => "len(" ++ m.group 1 ++ ")") := respelling_group (by decide)
  have hequals : Respelling ((ToPython.chain ++ ".equals(" ++ group 2 little ++ ")").replaceBy
      fun m => m.group 1 ++ " == " ++ m.group 2) := by
    refine respelling_of_call (w := ".equals".toList) (c := '(') (d := ')') (by decide) rfl rfl
      (by decide) rfl rfl fun subject m hof => ?_
    refine ⟨m.group 1 ++ " == ", [], by simp, ?_, by simp⟩
    intro x hx
    rcases mem_append.mp hx with hx | hx
    · refine isClean_of_wordOr ?_
      simpa [ToPython.chain, many1, Pattern.inside, little, few, Pattern.uses] using hof.inside hx
    · exact all_eq_true.mp rfl x hx
  intro items hclean
  refine (respelling_replace (by decide)).apply (hequals.apply ?_)
  exact ToPython.respelling_lengthMember.apply (hlength.apply (.refl hclean))

theorem respelling_callOf (name : String) (front back : Text)
    (hname : name.toList.contains '\x00' = false)
    (hfront : front.all isClean = true) (hback : back.all isClean = true) :
    Respelling ((ToJavaScript.callOf name).replaceBy fun m => front ++ (m.group 1 ++ back)) := by
  refine respelling_of_call (w := []) (c := '(') (d := ')') ?_ rfl rfl (by simp) rfl rfl ?_
  · simpa [append_eq_seq, Pattern.uses] using hname
  · intro subject m _
    exact ⟨front, back, rfl, fun x hx => all_eq_true.mp hfront x hx, fun x hx =>
      all_eq_true.mp hback x hx⟩

theorem respelling_calls {push write length : Text}
    (h : [push, write, length].all (·.all isClean) = true) :
    Respelling fun t => Text.replace ".append(" push ((ToJavaScript.callOf "str").replaceBy
      (fun m => write ++ m.group 1 ++ ")")
      ((ToJavaScript.callOf "len").replaceBy (fun m => m.group 1 ++ length) t)) := by
  simp only [all_cons, all_nil, Bool.and_true, Bool.and_eq_true] at h
  intro items hclean
  have hwrite := respelling_callOf "str" write ")" rfl h.2.1 rfl
  simp only [← append_assoc] at hwrite
  refine (respelling_replace ⟨by decide, by decide, h.1⟩).apply (hwrite.apply ?_)
  exact (respelling_callOf "len" [] length rfl rfl h.2.2).apply (.refl hclean)

theorem ToJavaScript.respelling_pythonCalls : Respelling ToJavaScript.pythonCalls :=
  respelling_calls rfl

theorem ToJava.respelling_pythonCalls : Respelling ToJava.pythonCalls := respelling_calls rfl

theorem isSolid_of_nameStart (h : nameStart c = true) : isSolid c = true := by
  have hdigit : c.isDigit = false := by
    by_contra hdigit
    rw [Bool.not_eq_false] at hdigit
    delta nameStart Char.isAlpha Char.isUpper Char.isLower at h
    simp only [Char.isDigit, Bool.or_eq_true, Bool.and_eq_true,
      decide_eq_true_eq, UInt32.le_iff_toNat_le, ge_iff_le] at h hdigit
    have hlow : 48 ≤ c.val.toNat := hdigit.1
    have hhigh : c.val.toNat ≤ 57 := hdigit.2
    rcases h with (⟨hupper, -⟩ | ⟨hlower, -⟩) | rfl
    · have : 65 ≤ c.val.toNat := hupper
      omega
    · have : 97 ≤ c.val.toNat := hlower
      omega
    · exact absurd hhigh (by decide)
  have hnull : c ≠ '\x00' := by
    rintro rfl
    exact absurd h (by decide)
  simp [isSolid, hdigit, hnull]

theorem ToPhp.respelling_sigils (known : Text → Bool) : Respelling (ToPhp.sigils known) := by
  intro items hclean
  refine .replaced (by decide) (Respelling.apply ?_ (.refl hclean))
  refine respelling_of_clear rfl ?_ ?_
  · intro subject m hof
    have hreads := hof.reads
    simp only [ToPhp.freeName, append_eq_seq, reads_seq_iff, reads_group_iff,
      reads_char_iff] at hreads
    obtain ⟨_, _, _, hwhole,
        ⟨_, _, _, rfl, ⟨_, _, _, rfl, _, _, ⟨_, _, _, rfl, ⟨c, _, rfl, hc, -, -⟩, _⟩, _⟩, _⟩, _⟩ :=
      hreads
    exact ⟨c, by rw [hwhole]; simp, isSolid_of_nameStart hc⟩
  · intro subject m hof c hc
    have hgroup : c ∈ m.group 1 → c ∈ m.whole := fun hc => (hof.group_isInfix 1).subset hc
    split at hc
    · rcases mem_append.mp hc with hc | hc
      · exact .inr (all_eq_true.mp rfl c hc)
      · exact .inl (hgroup hc)
    · exact .inl (hgroup hc)

end Expression

end CodeConverter

import CodeConverter.Proofs.Expression.Ending

/-!
# The braces of respelled expressions

A text without braces, or with an opening one at its end only, keeps the braces that it leaves open
when it is respelled. Patterns that could read a brace find none before the end of the text, and
what is written for them has no braces or a closed pair of them.
-/

namespace CodeConverter

open Pattern Text List Literal

/-- The text has no brace, or only an opening one at its end. -/
def OnlyFinal (t : Text) : Prop :=
  ∃ head, (∀ d ∈ head, isBrace d = false) ∧ (t = head ∨ t = head ++ ['{'])

/-- The two texts leave the same braces open. -/
def SameBraces (out t : Text) : Prop :=
  ∀ n, openAfter n out = openAfter n t

variable {out mid t u : Text}

theorem compatible_sameBraces : Compatible SameBraces where
  nil := fun _ => rfl
  append := by
    intro a b c d hab hcd n
    rw [openAfter_append, openAfter_append, hab n]
    exact congrArg _ (funext hcd)

theorem SameBraces.trans (h : SameBraces out mid) (h' : SameBraces mid t) :
    SameBraces out t := fun n =>
  (h n).trans (h' n)

theorem SameBraces.of_filter (h : out.filter isBrace = t.filter isBrace) : SameBraces out t :=
  openAfter_congr h

theorem filter_isBrace_eq_nil (h : ∀ d ∈ t, isBrace d = false) : t.filter isBrace = [] :=
  filter_eq_nil_iff.mpr fun d hd => by rw [h d hd]; exact Bool.false_ne_true

theorem plain_of_filter (h : t.filter isBrace = []) : ∀ d ∈ t, isBrace d = false := fun d hd =>
  Bool.eq_false_iff.mpr (filter_eq_nil_iff.mp h d hd)

variable {p : Pattern} {g : Match → Text} {new old : Text} {m : Match}

theorem filter_replaceBy
    (h : ∀ m : Match, m.Of p t → (g m).filter isBrace = m.whole.filter isBrace) :
    (p.replaceBy g t).filter isBrace = t.filter isBrace :=
  replaceBy_rel (compatible_filter_eq isBrace) (fun _ _ => rfl) h

theorem filter_replaceBy_of_uses
    (h : ∀ m : Match, m.Of p t → (g m).filter isBrace = []) (hopen : p.uses '{' = false)
    (hclose : p.uses '}' = false) : (p.replaceBy g t).filter isBrace = t.filter isBrace := by
  refine filter_replaceBy fun m hm => (h m hm).trans (filter_isBrace_eq_nil fun d hd => ?_).symm
  have huses := hm.reads.uses hd
  rcases brace_cases d with rfl | rfl | hother
  · rw [hopen] at huses
    cases huses
  · rw [hclose] at huses
    cases huses
  · exact hother

theorem filter_replace (t : Text)
    (h : old ≠ [] ∧ old.filter isBrace = [] ∧ new.filter isBrace = []) :
    (replace old new t).filter isBrace = t.filter isBrace :=
  replace_rel (compatible_filter_eq isBrace) h.1 (fun _ _ => rfl) (h.2.2.trans h.2.1.symm)

namespace SameBraces

theorem replacedWith (hp : p.uses '{' = false ∧ p.uses '}' = false ∧ new.filter isBrace = [])
    (h : SameBraces mid t) : SameBraces (p.replaceWith new mid) t :=
  (SameBraces.of_filter (filter_replaceBy_of_uses (fun _ _ => hp.2.2) hp.1 hp.2.1)).trans h

theorem replaced (hold : old ≠ [] ∧ old.filter isBrace = [] ∧ new.filter isBrace = [])
    (h : SameBraces mid t) : SameBraces (replace old new mid) t :=
  (SameBraces.of_filter (filter_replace mid hold)).trans h

end SameBraces

theorem endsAlike_brace (t : Text) (hp : p.nullable = false ∧ p.endsWith '{' = false) :
    EndsAlike (fun d => d = '{') (p.replaceBy g t) t :=
  .replaced (mem_of_only (mem_singleton_self _)) ⟨hp.1, by rw [all_cons, hp.2]; rfl⟩ .rfl

namespace OnlyFinal

theorem of_plain (h : ∀ d ∈ t, isBrace d = false) : OnlyFinal t := ⟨t, h, .inl rfl⟩

section

variable (h : OnlyFinal t)

include h

theorem not_mem : '}' ∉ t := by
  obtain ⟨head, hhead, heq⟩ := h
  intro hmem
  have hmem : '}' ∈ head := by
    rcases heq with rfl | rfl
    · exact hmem
    · simpa using hmem
  cases hhead _ hmem

theorem eq_nil (before after : Text) (heq : t = before ++ '{' :: after) : after = [] := by
  obtain ⟨head, hhead, hparts⟩ := h
  rcases eq_nil_or_concat' after with hnil | ⟨front, x, rfl⟩
  · exact hnil
  · have hmem : '{' ∈ head := by
      rcases hparts with rfl | rfl
      · rw [heq]
        simp
      · rw [← cons_append, ← append_assoc] at heq
        rw [(append_inj' heq rfl).1]
        simp
    cases hhead _ hmem

theorem part (hu : u <:+: t) : OnlyFinal u := by
  obtain ⟨before, after, hparts⟩ := hu
  by_cases hbrace : '{' ∈ u
  · obtain ⟨a, b, rfl⟩ := append_of_mem hbrace
    have hrest : b ++ after = [] := h.eq_nil (before ++ a) _ (by rw [← hparts]; simp)
    obtain rfl := (append_eq_nil_iff.mp hrest).1
    refine ⟨a, fun d hd => ?_, .inr rfl⟩
    rcases brace_cases d with rfl | rfl | hother
    · obtain ⟨x, y, rfl⟩ := append_of_mem hd
      have hlater := h.eq_nil (before ++ x) (y ++ '{' :: after) (by rw [← hparts]; simp)
      simp at hlater
    · exact absurd (show '}' ∈ t by rw [← hparts]; simp [hd]) h.not_mem
    · exact hother
  · refine .of_plain fun d hd => ?_
    rcases brace_cases d with rfl | rfl | hother
    · exact absurd hd hbrace
    · exact absurd (show '}' ∈ t by rw [← hparts]; simp [hd]) h.not_mem
    · exact hother

theorem openAfter_of_brace (hends : endsIn (· = '{') t = true) (n : Nat) :
    openAfter n t = some (n + 1) := by
  obtain ⟨front, d, rfl⟩ := (eq_nil_or_concat' t).resolve_left (ne_nil_of_endsIn hends)
  obtain rfl : d = '{' := by simpa [endsIn_concat] using hends
  obtain ⟨head, hhead, rfl | heq⟩ := h
  · cases hhead '{' (by simp)
  · rw [heq, openAfter_append_of (openAfter_of_plain hhead n)]
    rfl

theorem plain_of_end (hends : endsIn (· = '{') t = false) : ∀ d ∈ t, isBrace d = false := by
  obtain ⟨head, hhead, rfl | rfl⟩ := h
  · exact hhead
  · rw [endsIn_concat] at hends
    cases hends

theorem plain_dropLast : ∀ d ∈ t.dropLast, isBrace d = false := by
  obtain ⟨head, hhead, rfl | rfl⟩ := h
  · exact fun d hd => hhead d (mem_of_mem_dropLast hd)
  · rw [dropLast_concat]
    exact hhead

theorem whole_plain (hm : m.Of p t) (hlast : m.whole.getLast? ≠ some '{') :
    ∀ d ∈ m.whole, isBrace d = false := by
  obtain ⟨head, hhead, heq⟩ := h
  rcases heq with rfl | rfl
  · exact fun d hd => hhead d (hm.whole_isInfix.subset hd)
  · obtain ⟨before, after, hparts⟩ := hm.whole_isInfix
    intro d hd
    rcases eq_nil_or_concat' after with rfl | ⟨front, x, rfl⟩
    · -- The match reaches the end of the text, where only a brace could stand.
      obtain ⟨front, x, hfront⟩ := (eq_nil_or_concat' m.whole).resolve_left (ne_nil_of_mem hd)
      rw [hfront, append_nil, ← append_assoc] at hparts
      obtain ⟨-, hx⟩ := append_inj' hparts rfl
      rw [hfront, getLast?_concat, cons.inj hx |>.1] at hlast
      exact absurd rfl hlast
    · rw [← append_assoc] at hparts
      have hhead' := (append_inj' hparts rfl).1
      exact hhead d (by rw [← hhead']; simp [hd])

theorem found_plain (hm : m.Of p t) (hends : p.endsWith '{' = false) :
    ∀ d ∈ m.whole, isBrace d = false :=
  h.whole_plain hm fun hlast => by
    rw [hm.reads.endsWith hlast] at hends
    cases hends

theorem of_same (hfilter : out.filter isBrace = t.filter isBrace)
    (hends : EndsAlike (fun d => d = '{') out t) : OnlyFinal out := by
  obtain ⟨head, hhead, heq⟩ := h
  rcases heq with rfl | rfl
  · rw [filter_isBrace_eq_nil hhead] at hfilter
    exact .of_plain (plain_of_filter hfilter)
  · have hlast := hends.last (endsIn_concat _ _ _)
    obtain ⟨front, x, rfl⟩ := (eq_nil_or_concat' out).resolve_left (ne_nil_of_endsIn hlast)
    obtain rfl : x = '{' := by simpa [endsIn_concat] using hlast
    rw [filter_append, filter_append, filter_isBrace_eq_nil hhead] at hfilter
    exact ⟨front, plain_of_filter (append_cancel_right hfilter), .inr rfl⟩

theorem replaceBy (hnull : p.nullable = false) (hends : p.endsWith '{' = false)
    (hg : ∀ m : Match, m.Of p t → (∀ d ∈ m.whole, isBrace d = false) → (g m).filter isBrace = []) :
    (p.replaceBy g t).filter isBrace = t.filter isBrace ∧ OnlyFinal (p.replaceBy g t) := by
  have hfilter : (p.replaceBy g t).filter isBrace = t.filter isBrace :=
    filter_replaceBy fun m hm => by
    have hplain := h.found_plain hm hends
    rw [hg m hm hplain, filter_isBrace_eq_nil hplain]
  exact ⟨hfilter, h.of_same hfilter (endsAlike_brace t ⟨hnull, hends⟩)⟩

theorem sameBraces_replaceWith (hends : p.endsWith '{' = false)
    (hnew : Balanced new) : SameBraces (p.replaceWith new t) t := by
  refine replaceBy_rel compatible_sameBraces (fun _ _ _ => rfl) fun m hm n => ?_
  rw [hnew.openAfter, openAfter_of_plain (h.found_plain hm hends)]

end

end OnlyFinal

namespace Expression

theorem filter_enclose {a b : Text} (ha : a.filter isBrace = []) (hb : b.filter isBrace = [])
    (t : Text) : (a ++ t ++ b).filter isBrace = t.filter isBrace := by
  rw [filter_append, filter_append, ha, hb, nil_append, append_nil]

theorem filter_group (hm : m.Of p t) (hplain : ∀ d ∈ m.whole, isBrace d = false) (k : Nat) :
    (m.group k).filter isBrace = [] :=
  filter_isBrace_eq_nil fun d hd => hplain d ((hm.group_isInfix k).subset hd)

theorem isBrace_toLower {d : Char} (h : d.isUpper = true) : isBrace d.toLower = false := by
  have hval := (toLower_range h).2
  have hne : ∀ e : Char, 123 ≤ e.val.toNat → d.toLower ≠ e := by
    rintro e he rfl
    omega
  simp [isBrace, hne '{' (by decide), hne '}' (by decide)]

theorem ToPython.sameBraces_plainJava (h : OnlyFinal t) : SameBraces (ToPython.plainJava t) t := by
  unfold ToPython.plainJava
  have hlists :=
    h.replaceBy (p := wordEdge ++ "new" ++ gap ++ keyword ["ArrayList", "LinkedList"] ++ "<" ++
    many (except ">") ++ ">()") (g := fun _ => "[]") rfl rfl fun _ _ _ => rfl
  refine .replacedWith (by decide) (.trans ?_ (.of_filter hlists.1))
  exact hlists.2.sameBraces_replaceWith rfl rfl

theorem ToJavaScript.sameBraces_ofJava (h : OnlyFinal t) :
    SameBraces (ToJavaScript.ofJava t) t := by
  have hequals : ∀ u, SameBraces
      ((".equals(" ++ group 1 little ++ ")").replaceBy (fun m => " === " ++ m.group 1) u) u :=
    fun u => .of_filter (filter_replaceBy fun m hm => by
      rw [hm.whole_eq, ← append_assoc, filter_enclose rfl rfl, filter_append]
      rfl)
  unfold ToJavaScript.ofJava
  refine .replaced (by decide) ?_
  refine .replacedWith (by decide) ?_
  refine .replacedWith (by decide) ?_
  refine .replacedWith (by decide) ((hequals _).trans ?_)
  exact .replacedWith (by decide) (ToPython.sameBraces_plainJava h)

/-- C# expressions respelled for JavaScript. -/
theorem ToJavaScript.sameBraces_ofCSharp (h : OnlyFinal t) :
    SameBraces (ToJavaScript.ofCSharp t) t := by
  -- No hole is found in a literal without braces.
  have hliteral := h.replaceBy (p := interpolated) (g := fun m => "`" ++ interpolatedField.replaceBy
      (fun h => "$\x7b" ++ h.group 1 ++ "\x7d") (m.group 1) ++ "`") rfl rfl fun m hm hplain => by
    have hgroup := filter_group hm hplain 1
    have hfield : interpolatedField.needs isBrace = true := by decide
    rw [replaceBy_eq_self hfield (plain_of_filter hgroup), filter_enclose rfl rfl, hgroup]
  have hlist :=
    hliteral.2.replaceBy (p := collectionCreation) (g := fun m => "[" ++ m.group 1 ++ "]") rfl
    rfl fun m hm hplain => by rw [filter_enclose rfl rfl, filter_group hm hplain 1]
  have harray := hlist.2.replaceBy (p := arrayCreation) (g := fun m => "[" ++ m.group 1 ++ "]") rfl
    rfl fun m hm hplain => by rw [filter_enclose rfl rfl, filter_group hm hplain 1]
  have hmath : ∀ u, SameBraces ((wordEdge ++ "Math." ++ group 1 (.char Char.isUpper)).replaceBy
      (fun m => "Math." ++ (m.group 1).map Char.toLower) u) u := by
    refine fun u => .of_filter (filter_replaceBy_of_uses (fun m hm => ?_) rfl rfl)
    refine filter_isBrace_eq_nil fun d hd => ?_
    rcases mem_append.mp hd with hd | hd
    · exact plain_of_filter (t := "Math.") rfl d hd
    · obtain ⟨e, he, rfl⟩ := mem_map.mp hd
      refine isBrace_toLower ?_
      simpa [HAppend.hAppend, Append.append, Pattern.inside, wordEdge,
        Pattern.uses] using hm.inside he
  unfold ToJavaScript.ofCSharp
  iterate 5 refine .replaced (by decide) ?_
  iterate 2 refine .replacedWith (by decide) ?_
  refine .replacedWith (by decide) ((hmath _).trans ?_)
  refine .replacedWith (by decide) ?_
  refine .replacedWith (by decide) ?_
  refine (harray.2.sameBraces_replaceWith (by decide) (by decide)).trans ?_
  exact (SameBraces.of_filter harray.1).trans
    ((SameBraces.of_filter hlist.1).trans (.of_filter hliteral.1))

end Expression

theorem segments_of_none (h : ∀ m : Match, ¬ m.Of p t) : p.segments t = t.map Segment.plain := by
  have hall : ∀ l : List Segment, (∀ x ∈ l, x.Of p t) →
      l = (l.flatMap Segment.text).map Segment.plain := by
    intro l hl
    induction l with
    | nil => rfl
    | cons x l ih =>
      cases x with
      | plain c =>
        conv => lhs; rw [ih fun y hy => hl y (mem_cons_of_mem _ hy)]
        rfl
      | found m => exact absurd (hl _ mem_cons_self) (h m)
  conv => lhs; rw [hall _ segments_of, flatMap_segments]

namespace Literal

/-- A literal without braces is not taken apart. -/
theorem concatenation_of_plain {joiner contents : Text} (h : ∀ d ∈ contents, isBrace d = false) :
    concatenation joiner contents = "\"" ++ contents ++ "\"" := by
  have hsegments : braceField.segments contents = contents.map Segment.plain := by
    refine segments_of_none fun m hm => ?_
    have hneeds : braceField.needs isBrace = true := by decide
    obtain ⟨d, hd, hbrace⟩ := hm.reads.needs hneeds
    rw [h d (hm.whole_isInfix.subset hd)] at hbrace
    cases hbrace
  have hoperands : ∀ (rest run : Text), run ++ rest ≠ [] →
      operandsFrom run (rest.map Segment.plain) = ["\"" ++ (run.reverse ++ rest) ++ "\""] := by
    intro rest
    induction rest with
    | nil =>
      intro run hne
      cases run with
      | nil => exact absurd rfl hne
      | cons c run => simp [operandsFrom]
    | cons c rest ih =>
      intro run _
      cases run <;> simp [operandsFrom, ih]
  unfold concatenation
  rw [hsegments]
  cases contents with
  | nil => rfl
  | cons c contents =>
    rw [hoperands (c :: contents) [] (by simp), join_singleton]
    rfl

end Literal

namespace Expression

theorem ToJava.endsAlike_ofJavaScript (t : Text) :
    EndsAlike (fun d => d = '{') (ToJava.ofJavaScript t) t := by
  unfold ToJava.ofJavaScript ToCSharp.looseEquality
  refine .swapped (by decide) ((endsAlike_brace _ (by decide)).trans ?_)
  refine .swapped (by decide) (.swapped (by decide) ?_)
  refine (endsAlike_brace _ (by decide)).trans
    ((endsAlike_marked _ (by decide) (by decide)).trans ?_)
  exact endsAlike_brace t (by decide)

theorem Literal.onlyFinal_backtickToMarked (h : OnlyFinal t) :
    (backtickToMarked t).filter isBrace = t.filter isBrace ∧
    OnlyFinal (backtickToMarked t) :=
  h.replaceBy rfl rfl fun m hm hplain => by
    have hgroup := filter_group hm hplain 1
    have hfield : dollarField.needs isBrace = true := by decide
    rw [dollarToBrace, replaceBy_eq_self hfield (plain_of_filter hgroup),
      filter_enclose rfl rfl, hgroup]

/-- JavaScript expressions respelled for Java. -/
theorem ToJava.filter_ofJavaScript (h : OnlyFinal t) :
    (ToJava.ofJavaScript t).filter isBrace = t.filter isBrace := by
  have hliteral := Literal.onlyFinal_backtickToMarked h
  have hmarked : (markedToConcatenation " + " (backtickToMarked t)).filter isBrace =
      (backtickToMarked t).filter isBrace := filter_replaceBy fun m hm => by
    obtain ⟨q, hq, hwhole⟩ := markedLiteral_whole hm
    have hplain := OnlyFinal.whole_plain hliteral.2 hm (by
      rw [hwhole, ← cons_append, ← cons_append, getLast?_concat]
      rintro ⟨⟩
      cases hq)
    rw [concatenation_of_plain (plain_of_filter (filter_group hm hplain 2)),
      filter_enclose rfl rfl, filter_group hm hplain 2, filter_isBrace_eq_nil hplain]
  have hquoted : ∀ u, (ToJava.doubleQuoted u).filter isBrace = u.filter isBrace := fun u =>
    filter_replaceBy fun m hm => by
      rw [hm.whole_eq, ← append_assoc, filter_enclose rfl rfl, filter_enclose rfl rfl]
  unfold ToJava.ofJavaScript ToCSharp.looseEquality
  refine (filter_replace _ (by decide)).trans
    ((filter_replaceBy_of_uses (fun _ _ => rfl) (by decide) (by decide)).trans ?_)
  refine (filter_replace _ (by decide)).trans ((filter_replace _ (by decide)).trans ?_)
  rw [hquoted, hmarked]
  exact hliteral.1

/-- A JavaScript expression without braces ends for Java as it does, or in a quote or a letter. -/
theorem ToJava.endsAlike_of_plain {set : Char → Bool} (hquote : set '"' = true)
    (hletter : set 'l' = true)
    (h : ∀ d ∈ t, isBrace d = false) : EndsAlike set (ToJava.ofJavaScript t) t := by
  have hquoted : ∀ a : Text, endsIn set (a ++ "\"") = true := fun a => by
    rw [endsIn_append (by decide)]
    exact hquote
  have hbackticks : EndsAlike set (backtickToMarked t) t :=
    endsAlike_of_end (by decide) fun _ _ => hquoted _
  have hplain : ∀ d ∈ backtickToMarked t, isBrace d = false := by
    refine plain_of_filter ?_
    rw [(Literal.onlyFinal_backtickToMarked (.of_plain h)).1, filter_isBrace_eq_nil h]
  have hmarked : EndsAlike set (markedToConcatenation " + " (backtickToMarked t))
      (backtickToMarked t) :=
    endsAlike_of_end (by decide) fun m hm => by
      have hcontents :=
        fun d hd => hplain d (hm.whole_isInfix.subset ((hm.group_isInfix 2).subset hd))
      rw [concatenation_of_plain hcontents]
      exact hquoted _
  have hsingle : ∀ u, EndsAlike set (ToJava.doubleQuoted u) u := fun u =>
    endsAlike_of_end (by decide) fun _ _ => hquoted _
  have hword : ∀ u, EndsAlike set (Spelling.respellWord ["undefined"] "null" u) u := fun u =>
    endsAlike_of_end (by decide) fun _ _ => hletter
  have hreplace : ∀ {old new : Text}, old ≠ [] →
      (endsIn set old = true → endsIn set new = true) → ∀ u,
      EndsAlike set (replace old new u) u := fun hold h u =>
    replace_rel (compatible_endsAlike set) hold (fun _ _ => .rfl) ⟨fun hnil => absurd hnil hold, h⟩
  have hpush : ∀ u, EndsAlike set (replace ".push(" ".add(" u) u := hreplace (by decide) fun h => h
  have hequal : ∀ u, EndsAlike set (replace "===" "==" u) u := hreplace (by decide) fun h => h
  have hunequal : ∀ u, EndsAlike set (replace "!==" "!=" u) u := hreplace (by decide) fun h => h
  refine (hpush _).trans ((hword _).trans ((hunequal _).trans ((hequal _).trans ?_)))
  exact (hsingle _).trans (hmarked.trans hbackticks)

end Expression

end CodeConverter

import CodeConverter.Proofs.Expression.Added

/-!
# How respelled expressions end

A respelling that finds nothing at the end of an expression leaves its last character alone. If the
expression ends inside a literal, the token of that literal stays the last one while the code is
respelled, so the end of the literal is still the end of the expression.
-/

namespace CodeConverter

open Pattern Text List Bool Literal Spelling

/-- If the second text ends in a character of the class, so does the first. Nothing is written for
the empty text. -/
structure EndsAlike (set : Char → Bool) (out t : Text) : Prop where
  nil : t = [] → out = []
  last : endsIn set t = true → endsIn set out = true

variable {set : Char → Bool} {out mid t u : Text} {d : Char} {g : Match → Text} {p : Pattern}

theorem endsIn_append (hne : u ≠ []) : endsIn set (t ++ u) = endsIn set u := by
  rw [endsIn, endsIn, getLast?_append_of_ne_nil _ hne]

theorem endsIn_concat (set : Char → Bool) (t : Text) (c : Char) :
    endsIn set (t ++ [c]) = set c := by
  rw [endsIn_append (cons_ne_nil _ _)]
  rfl

theorem ne_nil_of_endsIn (h : endsIn set t = true) : t ≠ [] := by
  rintro rfl
  cases h

theorem endsIn_not (hne : t ≠ []) : endsIn (fun d => !set d) t = !endsIn set t := by
  obtain ⟨front, d, rfl⟩ := (eq_nil_or_concat' t).resolve_left hne
  rw [endsIn_concat, endsIn_concat]

theorem endsIn_eq_false_of_imp {less : Char → Bool} (himp : ∀ d, less d = true → set d = true)
    (h : endsIn set t = false) : endsIn less t = false := by
  unfold endsIn at h ⊢
  cases hlast : t.getLast? with
  | none => rfl
  | some d =>
    rw [hlast, Option.any_some] at h
    rw [Option.any_some, eq_false_iff]
    intro hless
    rw [himp d hless] at h
    cases h

namespace EndsAlike

theorem rfl : EndsAlike set t t := ⟨fun h => h, fun h => h⟩

theorem trans (h : EndsAlike set out mid) (h' : EndsAlike set mid t) : EndsAlike set out t :=
  ⟨fun ht => h.nil (h'.nil ht), fun ht => h.last (h'.last ht)⟩

theorem of_other (hne : t ≠ []) (h : endsIn set t = false) : EndsAlike set out t := by
  refine ⟨fun hnil => absurd hnil hne, fun hends => ?_⟩
  rw [h] at hends
  cases hends

theorem of_end (hne : t ≠ []) (h : endsIn set out = true) : EndsAlike set out t :=
  ⟨fun hnil => absurd hnil hne, fun _ => h⟩

theorem endsIn_eq_false (h : EndsAlike (fun d => !set d) out t) (ht : endsIn set t = false) :
    endsIn set out = false := by
  by_cases hne : t = []
  · rw [h.nil hne]
    exact .refl _
  · have hother := h.last (by rw [endsIn_not hne, ht]; exact .refl _)
    rwa [endsIn_not (ne_nil_of_endsIn hother), not_eq_true'] at hother

end EndsAlike

theorem compatible_endsAlike (set : Char → Bool) : Compatible (EndsAlike set) where
  nil := .rfl
  append := by
    intro a b c d hab hcd
    refine ⟨fun hnil => ?_, fun hends => ?_⟩
    · obtain ⟨hb, hd⟩ := append_eq_nil_iff.mp hnil
      rw [hab.nil hb, hcd.nil hd]
      exact append_nil _
    · by_cases hd : d = []
      · rw [hd, append_nil] at hends
        rw [hcd.nil hd, append_nil]
        exact hab.last hends
      · rw [endsIn_append hd] at hends
        have hc := hcd.last hends
        rw [endsIn_append (ne_nil_of_endsIn hc)]
        exact hc

theorem endsAlike_replaceBy
    (h : ∀ m : Match, m.Of p t → m.whole ≠ [] ∧ endsIn set m.whole = false) :
    EndsAlike set (p.replaceBy g t) t :=
  replaceBy_rel (compatible_endsAlike set) (fun _ _ => .rfl) fun m hm =>
    .of_other (h m hm).1 (h m hm).2

theorem endsAlike_of_end (hnull : p.nullable = false)
    (h : ∀ m : Match, m.Of p t → endsIn set (g m) = true) : EndsAlike set (p.replaceBy g t) t :=
  replaceBy_rel (compatible_endsAlike set) (fun _ _ => .rfl) fun m hm =>
    .of_end (hm.reads.ne_nil hnull) (h m hm)

theorem mem_of_only {c : Char} {ends : Text} (h : c ∈ ends) (d : Char)
    (hd : decide (d = c) = true) : d ∈ ends :=
  of_decide_eq_true hd ▸ h

/-- One more replacement keeps the end, when no match is empty or ends in one of the characters. -/
theorem EndsAlike.replaced {ends u : Text} (hset : ∀ d, set d = true → d ∈ ends)
    (hp : p.nullable = false ∧ ends.all (fun d => !p.endsWith d) = true) (h : EndsAlike set t u) :
    EndsAlike set (p.replaceBy g t) u := by
  refine (endsAlike_replaceBy fun m hm => ⟨hm.reads.ne_nil hp.1, ?_⟩).trans h
  cases hlast : m.whole.getLast? with
  | none =>
    rw [endsIn, hlast]
    rfl
  | some d =>
    rw [endsIn, hlast]
    refine eq_false_iff.mpr fun hd => ?_
    have hallowed := all_eq_true.mp hp.2 d (hset d hd)
    rw [hm.reads.endsWith hlast] at hallowed
    cases hallowed

theorem EndsAlike.swapped {old new : Text} (hold : old ≠ [] ∧ endsIn set old = false)
    (h : EndsAlike set t u) : EndsAlike set (Text.replace old new t) u :=
  (replace_rel (compatible_endsAlike set) hold.1 (fun _ _ => .rfl)
    (.of_other hold.1 hold.2)).trans h

namespace Literal

theorem maskItems_append (n : Nat) (ts us : List Token) :
    maskItems n (ts ++ us) = maskItems n ts ++ maskItems (n + ts.countP Token.isLiteral) us := by
  induction ts generalizing n with
  | nil => rfl
  | cons token ts ih =>
    cases token with
    | code c =>
      rw [cons_append, maskItems, ih, countP_cons_of_neg Bool.false_ne_true]
      exact .refl _
    | literal marked text =>
      rw [cons_append, maskItems, ih, countP_cons_of_pos (by exact .refl _), maskItems,
        Nat.add_assoc, Nat.add_comm 1]
      exact .refl _

theorem literalTexts_append (ts us : List Token) :
    literalTexts (ts ++ us) = literalTexts ts ++ literalTexts us := by
  induction ts with
  | nil => exact .refl _
  | cons token ts ih =>
    cases token with
    | code c => exact ih
    | literal marked text => exact congrArg (text :: ·) ih

theorem render_eq_nil {items : List Item} (h : render items = []) : items = [] := by
  cases items with
  | nil => exact .refl _
  | cons i items => cases i <;> cases h

theorem endsIn_render_mark (set : Char → Bool) (items : List Item) (n : Nat) :
    endsIn set (render (items ++ [.mark n])) = set '\x00' := by
  have hrender : render (items ++ [.mark n]) = render items ++ ('\x00' :: Text.decimal n) ++
      ['\x00'] := by
    rw [render_append]
    simp only [render_mark_cons, render_nil, append_nil, maskToken, append_assoc, cons_append]
  rw [hrender, endsIn_concat]

variable {f : Text → Text} {literals : List Text} {items items' : List Item}

theorem endsIn_fill_of_code (hset : set '\x00' = false) (h : endsIn set (render items) = true) :
    endsIn set (fill literals items) = true := by
  rcases eq_nil_or_concat' items with rfl | ⟨front, last, rfl⟩
  · cases h
  · cases last with
    | code c =>
      have hc : set c = true := by
        rw [render_append] at h
        exact (endsIn_concat set _ c).symm.trans h
      rw [fill_append]
      exact (endsIn_concat set _ c).trans hc
    | mark n =>
      rw [endsIn_render_mark, hset] at h
      cases h

theorem exists_concat_mark (hclean : Clean items)
    (h : endsIn (fun c => c = '\x00') (render items) = true) {n : Nat}
    {front : List Item} (hmarks : marks items = marks (front ++ [.mark n])) :
    ∃ front', items = front' ++ [.mark n] := by
  rcases eq_nil_or_concat' items with rfl | ⟨front', last, rfl⟩
  · cases h
  · cases last with
    | code c =>
      have hc : c = '\x00' := by
        rw [render_append] at h
        exact of_decide_eq_true ((endsIn_concat _ _ c).symm.trans h)
      have hclean := hclean c (mem_append_right _ mem_cons_self)
      rw [hc] at hclean
      cases hclean
    | mark k =>
      rw [marks_append, marks_append] at hmarks
      obtain ⟨-, hlast⟩ := append_inj' hmarks (.refl _)
      obtain ⟨rfl, -⟩ := cons.inj hlast
      exact ⟨front', .refl _⟩

theorem exists_concat_of_forall₂ {R : Text → Text → Prop} {as bs : List Text} {b : Text}
    (h : Forall₂ R as (bs ++ [b])) : ∃ as' a, as = as' ++ [a] ∧ R a b ∧ as'.length = bs.length := by
  induction bs generalizing as with
  | nil =>
    cases h with
    | cons hab hrest =>
      cases hrest
      exact ⟨[], _, .refl _, hab, .refl _⟩
  | cons c bs ih =>
    cases h with
    | @cons a _ rest _ _ hrest =>
      obtain ⟨as', last, rfl, hlast, hlength⟩ := ih hrest
      exact ⟨a :: as', last, .refl _, hlast, congrArg (· + 1) hlength⟩

/-- Respelling outside literals leaves the end of a text alone if respelling the code does. -/
theorem meets_respellOutside_endsAlike (hf : Respelling f) (hset : set '\x00' = false)
    (hends : ∀ t, EndsAlike set (f t) t) (hnull : ∀ t, EndsAlike (fun c => c = '\x00') (f t) t)
    (ht : '\x00' ∉ t) : Yields (fun out => EndsAlike set out t) (respellOutside f t) := by
  refine meets_respellWithin_rel (compatible_endsAlike set) (fun c => .rfl) hf
    (fun {t literals items} hall hclean hrender hmarks => ?_) _ ht (.inl fun _ => trivial)
  have htext : (tokens t).flatMap Token.text = t := flatMap_tokens t
  rcases eq_nil_or_concat' (tokens t) with hnil | ⟨front, last, hconcat⟩
  · -- Nothing is respelled as nothing.
    rw [hnil] at htext hrender
    have hitems : items = [] := render_eq_nil (hrender.symm.trans ((hends _).nil (.refl _)))
    have hempty : t = [] := htext.symm
    rw [hitems, hempty]
    exact .rfl
  have hsplit : t = front.flatMap Token.text ++ last.text := by
    rw [hconcat, flatMap_append] at htext
    rw [← htext]
    exact congrArg _ (append_nil _)
  have hlast : last.text ≠ [] := by
    have hmem : last ∈ tokens t := by
      rw [hconcat]
      exact mem_append_right _ mem_cons_self
    cases last with
    | code c => exact cons_ne_nil _ _
    | literal marked text =>
      rintro rfl
      have hliteral : (marked, []) ∈ literalsOf t := mem_filterMap.mpr ⟨_, hmem, .refl _⟩
      rcases isClosed_or_isOpen hliteral with h | h <;> cases h
  have hne : t ≠ [] := by
    rw [hsplit]
    exact fun h => hlast (append_eq_nil_iff.mp h).2
  refine ⟨fun h => absurd h hne, fun h => ?_⟩
  have hend : endsIn set last.text = true := by
    rw [hsplit, endsIn_append hlast] at h
    exact h
  rw [hconcat] at hrender hall hmarks
  rw [maskItems_append] at hrender hmarks
  cases last with
  | code c =>
    refine endsIn_fill_of_code hset ?_
    rw [← hrender]
    refine (hends _).last ?_
    rw [render_append]
    exact (endsIn_concat set _ c).trans hend
  | literal marked text =>
    have hmark : endsIn (fun c => c = '\x00') (render items) = true := by
      rw [← hrender]
      refine (hnull _).last ?_
      exact endsIn_render_mark _ _ _
    obtain ⟨front', rfl⟩ := exists_concat_mark hclean hmark hmarks
    rw [literalTexts_append] at hall
    obtain ⟨before, literal, rfl, hliteral, hlength⟩ := exists_concat_of_forall₂ hall
    have hfill : fill (before ++ [literal]) (front' ++ [.mark (0 + front.countP Token.isLiteral)]) =
        fill (before ++ [literal]) front' ++ literal := by
      rw [fill_append, Nat.zero_add, ← length_literalTexts, ← hlength]
      refine congrArg _ ((append_nil _).trans ?_)
      show (before ++ [literal]).getD before.length [] = literal
      rw [getD_eq_getElem?_getD, getElem?_concat_length, Option.getD_some]
    have hdone := hliteral.last hend
    rw [hfill, endsIn_append (ne_nil_of_endsIn hdone)]
    exact hdone

/-- Respelling outside literals adds no null character. -/
theorem meets_respellOutside_null (hf : Respelling f) (ht : '\x00' ∉ t) :
    Yields (fun out => '\x00' ∉ out) (respellOutside f t) :=
  (meets_respellWithin hf _ ht (.inl fun _ => trivial)).imp fun _ hout => hout.null ht

theorem endsAlike_marked (t : Text) (hsingle : set '\x27' = false)
    (hdouble : set '\x22' = false) : EndsAlike set (markedLiteral.replaceBy g t) t := by
  refine endsAlike_replaceBy fun m hof => ?_
  obtain ⟨q, hq, hwhole⟩ := markedLiteral_whole hof
  refine ⟨by rw [hwhole]; exact cons_ne_nil _ _, ?_⟩
  rw [hwhole, ← cons_append, ← cons_append, endsIn_concat]
  simp only [isPlainQuote, or_eq_true, decide_eq_true_eq] at hq
  rcases hq with rfl | rfl
  · exact hsingle
  · exact hdouble

end Literal

theorem Spelling.endsAlike_toSymbols (hset : ∀ d, set d = true → d ∈ ":)h\x00".toList)
    (strict : Bool) (receiver t : Text) : EndsAlike set (toSymbols strict receiver t) t := by
  have hstrict : ∀ t, EndsAlike set (if strict then strictEquality t else t) t := by
    intro t
    split
    · exact .replaced hset (by decide) <| .replaced hset (by decide) .rfl
    · exact .rfl
  unfold toSymbols
  iterate 7 refine .replaced hset (by decide) ?_
  refine (hstrict _).trans ?_
  exact .replaced hset (by decide) <| .replaced hset (by decide) .rfl

theorem Spelling.endsAlike_toWords (hset : ∀ d, set d = true → d ∈ ")\x00".toList) (t : Text) :
    EndsAlike set (toWords t) t := by
  have hother : ∀ {text : Text}, (∀ d ∈ text.getLast?, d ∉ ")\x00".toList) →
      endsIn set text = false := by
    intro text htext
    cases hlast : text.getLast? with
    | none =>
      rw [endsIn, hlast]
      rfl
    | some d =>
      rw [endsIn, hlast]
      exact eq_false_iff.mpr fun hd => htext d hlast (hset d hd)
  unfold toWords
  iterate 7 refine .replaced hset (by decide) ?_
  exact .swapped ⟨by decide, hother (by decide)⟩ (.swapped ⟨by decide, hother (by decide)⟩ .rfl)

theorem Literal.endsAlike_backtickToMarked (hset : ∀ d, set d = true → d ∈ ")\x00".toList)
    (t : Text) : EndsAlike set (backtickToMarked t) t :=
  .replaced hset (by decide) .rfl

/-- A JavaScript call is a call in Python. -/
theorem Expression.ToPython.meets_ofJavaScript_call (ht : '\x00' ∉ t)
    (h : endsIn (fun c => c = ')') t = true) :
    Yields (fun out => endsIn (fun c => c = ')') out = true) (ofJavaScript t) := by
  have hcall : ∀ d, decide (d = ')') = true → d ∈ ")\x00".toList := mem_of_only (by decide)
  have hnull : ∀ d, decide (d = '\x00') = true → d ∈ ")\x00".toList := mem_of_only (by decide)
  have hnew : ∀ {set : Char → Bool}, (∀ d, set d = true → d ∈ ")\x00".toList) → ∀ t,
      EndsAlike set (dropNew t) t :=
    fun hset t => .replaced hset (by decide) .rfl
  have hlength : ∀ {set : Char → Bool}, (∀ d, set d = true → d ∈ ")\x00".toList) → ∀ t,
      EndsAlike set (lengthMember t) t :=
    fun hset t => .replaced hset (by decide) .rfl
  have hplain : '\x00' ∉ backtickToMarked t := (tame_backtickToMarked t).null ht
  have hbraces : Yields (fun mid => EndsAlike (fun c => c = ')') mid t ∧ '\x00' ∉ mid)
      (ofBraces (backtickToMarked t)) := by
    refine ((meets_respellOutside_endsAlike respelling_dropNew rfl (hnew hcall) (hnew hnull)
      hplain).and
      (meets_respellOutside_null respelling_dropNew hplain)).bind
      fun mid ⟨hmid, hmidNull⟩ => ?_
    refine ((meets_respellOutside_endsAlike respelling_toWords rfl
      (endsAlike_toWords hcall) (endsAlike_toWords hnull) hmidNull).and
      (meets_respellOutside_null respelling_toWords hmidNull)).imp
      fun out hout => ?_
    exact ⟨hout.1.trans (hmid.trans (endsAlike_backtickToMarked hcall t)), hout.2⟩
  refine hbraces.bind fun mid ⟨hmid, hmidNull⟩ => ?_
  refine (meets_respellOutside_endsAlike respelling_javascriptCalls rfl
    (fun t => .swapped (by decide) (hlength hcall t))
    (fun t => .swapped (by decide) (hlength hnull t)) hmidNull).imp fun out hout => ?_
  exact (hout.trans hmid).last h

theorem Expression.ToJavaScript.endsAlike_ofCSharp (t : Text) :
    EndsAlike (fun c => c = ';') (ofCSharp t) t := by
  have hset : ∀ d, decide (d = ';') = true → d ∈ ";".toList := mem_of_only (by decide)
  unfold ofCSharp
  iterate 5 refine .swapped (by decide) ?_
  iterate 10 refine .replaced hset (by decide) ?_
  exact .rfl

namespace Expression.ToJavaScript

/-- What ends a JavaScript call: a closing parenthesis, or the name of a member that stands for
it. -/
def endsCall (c : Char) : Bool :=
  c = ')' || c = 'h'

theorem endsAlike_pythonCalls (t : Text) : EndsAlike endsCall (pythonCalls t) t := by
  have hlen :
      EndsAlike endsCall ((callOf "len").replaceBy (fun m => m.group 1 ++ ".length") t) t := by
    refine endsAlike_of_end rfl fun m _ => ?_
    rw [endsIn_append (by decide)]
    rfl
  have hstr : ∀ u, EndsAlike endsCall
      ((callOf "str").replaceBy (fun m => "String(" ++ m.group 1 ++ ")") u) u :=
    fun u => endsAlike_of_end rfl fun m _ => endsIn_concat _ _ ')'
  exact .swapped (by decide) ((hstr _).trans hlen)

/-- A Python call is a call or a member in JavaScript. -/
theorem meets_ofPython_call (ht : '\x00' ∉ t) (h : endsIn (fun c => c = ')') t = true) :
    Yields (fun out => endsIn endsCall out = true) (ofPython t) := by
  have hcall : ∀ d, endsCall d = true → d ∈ ":)h\x00".toList := fun d hd => by
    rcases or_eq_true_iff.mp hd with hd | hd <;> rw [of_decide_eq_true hd] <;> decide
  have hnull : ∀ d, decide (d = '\x00') = true → d ∈ ":)h\x00".toList := mem_of_only (by decide)
  have hnull' : ∀ d, decide (d = '\x00') = true → d ∈ "\x00".toList := mem_of_only (by decide)
  have hcalls : ∀ t, EndsAlike (fun c => c = '\x00') (pythonCalls t) t := fun t =>
    .swapped (by decide) (.replaced hnull' (by decide) <| .replaced hnull' (by decide) .rfl)
  have hends : endsIn endsCall t = true := by
    obtain ⟨c, hc, hlast⟩ := (Option.any_eq_true _ _).mp h
    rw [endsIn, hc, of_decide_eq_true hlast]
    rfl
  have hmarked : EndsAlike endsCall (markedToBacktick t) t :=
    endsAlike_marked t rfl rfl
  have hplain : '\x00' ∉ markedToBacktick t := (tame_markedToBacktick t).null ht
  have hsymbols :=
    (meets_respellOutside_endsAlike (respelling_toSymbols true rfl) rfl
    (endsAlike_toSymbols hcall true "this.")
    (endsAlike_toSymbols hnull true "this.") hplain).and
    (meets_respellOutside_null (respelling_toSymbols true rfl) hplain)
  refine hsymbols.bind fun mid ⟨hmid, hmidNull⟩ => ?_
  refine (meets_respellOutside_endsAlike respelling_pythonCalls rfl endsAlike_pythonCalls
    hcalls hmidNull).imp
    fun out hout => ?_
  exact (hout.trans (hmid.trans hmarked)).last hends

end Expression.ToJavaScript

namespace Expression.ToPhp

theorem endsAlike_sigils (hset : ∀ d, set d = true → d ∈ ":\x00".toList) (known : Text → Bool)
    (t : Text) : EndsAlike set (sigils known t) t :=
  .replaced hset (by decide) <| .replaced hset (by decide) .rfl

/-- A Python expression that ends in a colon does so in PHP. -/
theorem meets_ofPython_colon {known : Text → Bool} (ht : '\x00' ∉ t)
    (h : endsIn (fun c => c = ':') t = true) :
    Yields (fun out => endsIn (fun c => c = ':') out = true) (ofPython known t) := by
  have hcolon : ∀ d, decide (d = ':') = true → d ∈ ":\x00".toList := mem_of_only (by decide)
  have hnull : ∀ d, decide (d = '\x00') = true → d ∈ ":\x00".toList := mem_of_only (by decide)
  have hmore : ":\x00".toList ⊆ ":)h\x00".toList := by decide
  have hspread : Spread (markedToConcatenation " . " t) t :=
    spread_markedToConcatenation rfl t
  have hconcatenated : EndsAlike (fun c => c = ':') (markedToConcatenation " . " t) t :=
    endsAlike_marked t rfl rfl
  have hplain : '\x00' ∉ markedToConcatenation " . " t := hspread.null ht
  have hsymbols := (meets_respellOutside_endsAlike (respelling_toSymbols false rfl)
    (by decide) (endsAlike_toSymbols (fun d hd => hmore (hcolon d hd)) false "$this->")
    (endsAlike_toSymbols (fun d hd => hmore (hnull d hd)) false "$this->") hplain).and
    (meets_respellOutside_null (respelling_toSymbols false rfl) hplain)
  refine hsymbols.bind fun mid ⟨hmid, hmidNull⟩ => ?_
  refine (meets_respellOutside_endsAlike (respelling_sigils known) rfl
    (endsAlike_sigils hcolon known)
    (endsAlike_sigils hnull known) hmidNull).bind fun out hout => .ok ?_
  have harrays : EndsAlike (fun c => c = ':') (if out.contains ':' then arrays out
      else replace "{}" "array()" out) out := by
    split
    · exact .replaced hcolon (by decide) .rfl
    · exact .swapped (by decide) .rfl
  have hcalls : ∀ u, EndsAlike (fun c => c = ':') (appendCall.replaceBy
      (fun m => "array_push(" ++ m.group 1 ++ ", " ++ m.group 2 ++ ")")
      ((wordEdge ++ "str(").replaceWith "strval(" ((wordEdge ++ "len(").replaceWith "count(" u)))
      u := fun u =>
    .replaced hcolon (by decide) <| .replaced hcolon (by decide) <|
      .replaced hcolon (by decide) .rfl
  exact ((hcalls _).trans (harrays.trans (hout.trans (hmid.trans hconcatenated)))).last h

end Expression.ToPhp

end CodeConverter

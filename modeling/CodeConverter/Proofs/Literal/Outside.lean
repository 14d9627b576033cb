import CodeConverter.Proofs.Literal.Respelling
import CodeConverter.Proofs.Literal.Scan
import Mathlib.Data.List.Forall2

/-!
# Respelling the code outside literals

Every token of a masked text is replaced by the literal it names, so masking, respelling and
filling in the literals again always succeeds (`meets_respellOutside`). The result has no more
quotes than the text, since the literals are the same and code has none.
-/

namespace CodeConverter.Literal

open Pattern List

variable {part : Text} {set : Char → Bool}

/-- The text of the items with the literals in place of their tokens. -/
def fill (literals : List Text) (items : List Item) : Text :=
  items.flatMap fun
    | .code c => [c]
    | .mark n => literals.getD n []

theorem fill_append (literals : List Text) (items more : List Item) :
    fill literals (items ++ more) = fill literals items ++ fill literals more :=
  flatMap_append

variable {subject t a b new : Text} {s : Pattern.State} {n : Nat} {fails : Fault → Prop}
    {literals : List Text}
  {items : List Item} {ts : List Token} {c : Char} {R : Text → Text → Prop}
  {respell : Text → Except Fault Text}

/-- A token is found where it stands, with its number remembered. -/
theorem matchAt_maskPattern {rest : Text} (hs : s.Within subject)
    (hahead : s.ahead = maskToken n ++ rest) :
    ∃ m, maskPattern.matchAt subject s = some m ∧ m.group 1 = Text.decimal n ∧ m.last.ahead = rest ∧
      m.last.Within subject ∧ s.index < m.last.index := by
  have hdecimal : ∀ c ∈ Text.decimal n, c.isDigit = true := fun c => Text.isDigit_of_mem_decimal
  obtain ⟨d, ds, hds⟩ : ∃ d ds, Text.decimal n = d :: ds :=
    exists_cons_of_ne_nil Nat.toDigits_ne_nil
  have hdigits : ∀ c ∈ d :: ds, Text.isDigit c = true := fun c hc =>
    Text.isDigit_of_isDigit (hdecimal c (hds ▸ hc))
  have hreads : ∃ piece t, Reads maskPattern { s with captures := [] } piece t :=
    ⟨_, _, .seq (.seq (.literal _ _ _ (by rw [hahead]; rfl))
      (.group 1
      (.seq (.char _ _ d (ds ++ '\x00' :: rest) (by simp [State.past, hds]) (hdigits d (by simp)))
        (.chars _ _ _ ds ('\x00' :: rest) rfl fun c hc => hdigits c (mem_cons_of_mem _ hc)))))
        (.literal _ _ _ rfl)⟩
  obtain ⟨piece, t, hreads⟩ := hreads
  obtain ⟨m, hm⟩ := Option.isSome_iff_exists.mp (@isSome_matchAt_of_reads _ _ _ subject _ hreads)
  obtain ⟨hof, hfirst⟩ := of_matchAt hm hs
  obtain ⟨a, u, v, ha, hbody, hwhole, -, -⟩ := hof.enclosed
  obtain ⟨rfl, -⟩ := reads_literal_iff.mp ha
  have hall : ∀ c ∈ m.group 1, Text.isDigit c = true := fun c hc => by
    simpa [many1, Pattern.uses] using hbody.uses hc
  have hsplit : s.ahead = m.whole ++ m.last.ahead := by
    have heq := hof.ahead_eq
    rwa [hfirst] at heq
  -- Neither run of digits has a null character, so both end at the same one.
  have hrest : Text.decimal n ++ '\x00' :: rest = m.group 1 ++ '\x00' :: m.last.ahead := by
    rw [hahead, hwhole] at hsplit
    simpa [maskToken] using hsplit
  have hnull : ∀ c, Text.isDigit c = true → c ≠ '\x00' := by
    rintro c hc rfl
    exact absurd hc (by decide)
  obtain ⟨hgroup, hlast⟩ := Text.append_cons_inj_of_not_mem
    (fun hmem => hnull _ (Text.isDigit_of_isDigit (hdecimal _ hmem)) rfl)
    (fun hmem => hnull _ (hall _ hmem) rfl) hrest
  refine ⟨m, hm, hgroup.symm, hlast.symm, hof.last_within, ?_⟩
  have hindex := hof.index_eq
  rw [hindex, hfirst, hwhole]
  simp

theorem matchAt_maskPattern_eq_none (hs : s.Within subject)
    (hahead : s.ahead.head? ≠ some '\x00') : maskPattern.matchAt subject s = none := by
  cases hm : maskPattern.matchAt subject s with
  | none => rfl
  | some m =>
    obtain ⟨hof, hfirst⟩ := of_matchAt hm hs
    have heq := hof.ahead_eq
    rw [hfirst, hof.whole_eq] at heq
    exact absurd (by rw [heq]; rfl) hahead

/-- From every place between items on, each token is replaced by the literal it names. -/
theorem meets_rebuild_segmentsFrom {fuel : Text} (hs : s.Within subject)
    (hahead : s.ahead = render items) (hfuel : s.ahead.length ≤ fuel.length) (hclean : Clean items)
    (hmarks : ∀ n ∈ marks items, ∀ m : Match, m.group 1 = Text.decimal n →
      Meets fails (fun text => text = literals.getD n []) (unmaskOne literals m)) :
    Meets fails (fun out => out = fill literals items)
      (rebuild (unmaskOne literals) (maskPattern.segmentsFrom subject fuel s)) := by
  induction items generalizing s fuel with
  | nil =>
    have hnil : s.ahead = [] := hahead
    rw [segmentsFrom_at_end (matchAt_maskPattern_eq_none hs (by simp [hnil])) hnil]
    exact .ok rfl
  | cons i items ih =>
    cases fuel with
    | nil => cases i <;> simp [hahead, maskToken] at hfuel
    | cons d fuel =>
      cases i with
      | code c =>
        have hcode : s.ahead = c :: render items := hahead
        have hc : isClean c = true := hclean c mem_cons_self
        have hne : s.ahead.head? ≠ some '\x00' := by
          rw [hcode]
          rintro ⟨⟩
          exact absurd hc (by decide)
        rw [hcode] at hfuel
        rw [segmentsFrom_of_none (matchAt_maskPattern_eq_none hs hne) hcode, rebuild]
        refine (ih (hs.advance hcode) rfl (by simpa [State.advance] using hfuel) hclean.tail
          hmarks).bind
          fun tail htail => .ok ?_
        rw [htail]
        rfl
      | mark n =>
        obtain ⟨m, hm, hgroup, hlast, hwithin, hmoved⟩ :=
          @matchAt_maskPattern _ _ _ (render items) hs hahead
        have hshort : m.last.ahead.length ≤ fuel.length := by
          have hlength := congrArg length hahead
          rw [render_mark_cons, length_append, ← hlast] at hlength
          simp only [maskToken, length_append, length_cons] at hlength hfuel
          omega
        have hlater := @ih _ fuel hwithin hlast hshort hclean.tail
          fun k hk => hmarks k (mem_cons_of_mem _ hk)
        rw [segmentsFrom_of_match hm hmoved, rebuild]
        refine (hmarks n (by simp) m hgroup).bind fun text htext =>
          hlater.bind fun tail htail => .ok ?_
        rw [htext, htail]
        rfl

theorem meets_unmaskOne {m : Match} (hgroup : m.group 1 = Text.decimal n) :
    Yields (fun text => text = literals.getD n []) (unmaskOne literals m) := by
  simp only [unmaskOne, hgroup, Text.readNat, Text.natOfDigits_decimal]
  split
  · exact .error trivial
  · dsimp only [bind, Except.bind]
    cases hlookup : literals[n]? with
    | none => exact .error trivial
    | some text =>
      refine .ok ?_
      rw [getD_eq_getElem?_getD, hlookup, Option.getD_some]

theorem meets_unmask_render (hclean : Clean items) :
    Yields (fun out => out = fill literals items) (unmask literals (render items)) :=
  meets_rebuild_segmentsFrom (State.start_within _) rfl (Nat.le_refl _) hclean fun _ _ _ hgroup =>
    meets_unmaskOne hgroup

theorem unmask_render (hclean : Clean items)
    (hmarks : ∀ n ∈ marks items, n < literals.length ∧ n < Text.capacity) :
    unmask literals (render items) = .ok (fill literals items) := by
  have hmeets : Meets (fun _ => False) (fun out => out = fill literals items)
      (unmask literals (render items)) := by
    refine meets_rebuild_segmentsFrom (State.start_within _) rfl (Nat.le_refl _) hclean
      fun n hn m hgroup => ?_
    obtain ⟨hlt, hlimit⟩ := hmarks n hn
    simp only [unmaskOne, hgroup, Text.readNat_decimal hlimit, bind, Except.bind,
      getElem?_eq_getElem hlt]
    refine .ok ?_
    rw [getD_eq_getElem?_getD, getElem?_eq_getElem hlt, Option.getD_some]
  obtain ⟨out, heq, rfl⟩ := hmeets.exists_ok
  exact heq

/-- The items of a masked text, literals numbered from `n`. -/
def maskItems (n : Nat) : List Token → List Item
  | [] => []
  | .code c :: ts => .code c :: maskItems n ts
  | .literal _ _ :: ts => .mark n :: maskItems (n + 1) ts

theorem mask_eq_render (n : Nat) (ts : List Token) : mask n ts = render (maskItems n ts) := by
  induction ts generalizing n with
  | nil => rfl
  | cons t ts ih =>
    cases t with
    | code c | literal marked text => simp [mask, maskItems, ih]

theorem marks_maskItems (n : Nat) (ts : List Token) :
    marks (maskItems n ts) = range' n (ts.countP Token.isLiteral) := by
  induction ts generalizing n with
  | nil => rfl
  | cons t ts ih =>
    cases t with
    | code c => simp [maskItems, Token.isLiteral, ih]
    | literal marked text =>
      rw [countP_cons_of_pos rfl, range'_succ, ← ih]
      rfl

theorem mem_maskItems (h : Item.code c ∈ maskItems n ts) : Token.code c ∈ ts := by
  induction ts generalizing n with
  | nil => cases h
  | cons t ts ih =>
    cases t with
    | code d =>
      rcases mem_cons.mp h with h | h
      · obtain rfl : c = d := by simpa using h
        exact mem_cons_self
      · exact mem_cons_of_mem _ (ih h)
    | literal marked text =>
      rcases mem_cons.mp h with h | h
      · cases h
      · exact mem_cons_of_mem _ (ih h)

theorem clean_maskItems (h : '\x00' ∉ t) : Clean (maskItems 0 (tokens t)) := by
  intro c hc
  have hmem := mem_maskItems hc
  have hquote : isQuote c = false := (scanned_tokens t).isQuote hmem
  have hin : c ∈ t := by
    rw [← flatMap_tokens t]
    exact mem_flatMap.mpr ⟨_, hmem, mem_singleton_self c⟩
  have hnull : c ≠ '\x00' := fun heq => h (heq ▸ hin)
  simp [isClean, hquote, hnull]

/-- The first text is as harmless as the second: it has a null character only if the second has
one, and no more quotes. -/
structure Tame (out t : Text) : Prop where
  null : '\x00' ∉ t → '\x00' ∉ out
  quotes : out.countP isQuote ≤ t.countP isQuote

theorem compatible_tame : Compatible Tame where
  nil := ⟨fun h => h, Nat.le_refl _⟩
  append := by
    intro a b c d hab hcd
    refine ⟨fun h => ?_, ?_⟩
    · rw [mem_append, not_or] at h ⊢
      exact ⟨hab.null h.1, hcd.null h.2⟩
    · have := hab.quotes
      have := hcd.quotes
      rw [countP_append, countP_append]
      omega

theorem Tame.refl (t : Text) : Tame t t := ⟨fun h => h, Nat.le_refl _⟩

theorem Tame.trans {c : Text} (hab : Tame a b) (hbc : Tame b c) : Tame a c :=
  ⟨fun h => hab.null (hbc.null h), Nat.le_trans hab.quotes hbc.quotes⟩

theorem Tame.of_sublist (h : part <+ t) : Tame part t :=
  ⟨fun hnull hmem => hnull (h.subset hmem), h.countP_le⟩

theorem Tame.of_isInfix (h : part <:+: t) : Tame part t :=
  .of_sublist h.sublist

theorem Tame.of_clean (h : new.all isClean = true) (t : Text) : Tame new t := by
  have hall : ∀ c ∈ new, c ≠ '\x00' ∧ isQuote c = false := by
    intro c hc
    simpa [isClean] using all_eq_true.mp h c hc
  refine ⟨fun _ hmem => (hall _ hmem).1 rfl, ?_⟩
  rw [countP_eq_zero.mpr fun c hc => by simp [(hall c hc).2]]
  exact Nat.zero_le _

theorem Tame.wrap (h : Tame new t) (ha : a.all isClean = true)
    (hb : b.all isClean = true) : Tame (a ++ new ++ b) t := by
  have hsum := compatible_tame.append (compatible_tame.append (.of_clean ha []) h) (.of_clean hb [])
  simpa using hsum

/-- Respelling holes keeps a compatible relation that holds between every hole and its
respelling. -/
theorem meets_respellHoles_rel (hR : Compatible R) (hrefl : ∀ c, R [c] [c]) {text : Text}
    (marked : Bool)
    (h : ∀ hole, hole <:+: text → Meets fails (fun out => R out hole) (respell hole)) :
    Meets fails (fun out => R out text) (respellHoles respell marked text) := by
  have hself := hR.self hrefl
  have henclose : ∀ a b new inner : Text, R new inner → R (a ++ new ++ b) (a ++ (inner ++ b)) := by
    intro a b new inner hnew
    rw [append_assoc]
    exact hR.append (hself a) (hR.append hnew (hself b))
  simp only [respellHoles]
  refine .either ?_ (.either ?_ (.ok (hself text)))
  · refine tryReplaceBy_rel hR (fun c _ => hrefl c) fun m hm => ?_
    refine (h (m.group 1) ((hm.group_isInfix 1).trans hm.whole_isInfix)).bind fun new hnew => ?_
    rw [hm.whole_eq]
    exact .ok (henclose _ _ _ _ hnew)
  · refine tryReplaceBy_rel hR (fun c _ => hrefl c) fun m hm => ?_
    obtain ⟨a, u, v, ha, -, hwhole, -, -⟩ := Match.Of.enclosed hm
    obtain ⟨a', w, b', rfl, ha', hb'⟩ := reads_seq_iff.mp ha
    obtain rfl : a' = [] := by cases ha'; rfl
    obtain ⟨rfl, -⟩ := reads_literal_iff.mp hb'
    refine (h (m.group 1) ((hm.group_isInfix 1).trans hm.whole_isInfix)).bind fun new hnew => ?_
    rw [hwhole, nil_append]
    exact .ok (henclose _ _ _ _ hnew)

theorem exists_of_mem_left {α β : Type} {R : α → β → Prop} {as : List α} {bs : List β} {a : α}
    (h : Forall₂ R as bs) (ha : a ∈ as) : ∃ b ∈ bs, R a b := by
  induction h with
  | nil => cases ha
  | cons hab _ ih =>
    rcases mem_cons.mp ha with rfl | hmem
    · exact ⟨_, mem_cons_self, hab⟩
    · obtain ⟨b, hb, hrel⟩ := ih hmem
      exact ⟨b, mem_cons_of_mem _ hb, hrel⟩

/-- The literals of some tokens. -/
def literalTexts : List Token → List Text
  | [] => []
  | .code _ :: ts => literalTexts ts
  | .literal _ text :: ts => text :: literalTexts ts

theorem length_literalTexts (ts : List Token) :
    (literalTexts ts).length = ts.countP Token.isLiteral := by
  induction ts with
  | nil => rfl
  | cons token ts ih =>
    cases token with
    | code c => rw [countP_cons_of_neg (by simp [Token.isLiteral]), ← ih]; rfl
    | literal marked text => rw [countP_cons_of_pos rfl, ← ih]; rfl

theorem exists_token_of_mem_literalTexts (h : t ∈ literalTexts ts) :
    ∃ token ∈ ts, token.text = t := by
  induction ts with
  | nil => cases h
  | cons token ts ih =>
    cases token with
    | code c =>
      obtain ⟨token, hmem, htext⟩ := ih h
      exact ⟨token, mem_cons_of_mem _ hmem, htext⟩
    | literal marked text =>
      rcases mem_cons.mp h with rfl | hmem
      · exact ⟨_, mem_cons_self, rfl⟩
      · obtain ⟨token, hmem, htext⟩ := ih hmem
        exact ⟨token, mem_cons_of_mem _ hmem, htext⟩

theorem token_isInfix {token : Token} (h : token ∈ tokens t) : token.text <:+: t := by
  obtain ⟨a, b, hab⟩ := append_of_mem h
  refine ⟨a.flatMap Token.text, b.flatMap Token.text, ?_⟩
  conv => rhs; rw [← flatMap_tokens t, hab]
  simp

/-- Respelling the holes of the literals keeps a compatible relation that holds between a hole and
its respelling. -/
theorem meets_respellLiterals_rel (hR : Compatible R) (hrefl : ∀ c, R [c] [c]) (ts : List Token)
    (h : ∀ text ∈ literalTexts ts, ∀ hole, hole <:+: text →
    Meets fails (fun out => R out hole) (respell hole)) :
    Meets fails (fun literals => Forall₂ R literals (literalTexts ts))
    (respellLiterals respell ts) := by
  induction ts with
  | nil => exact .ok .nil
  | cons token ts ih =>
    cases token with
    | code c => exact ih h
    | literal marked text =>
      have hrest := ih fun text hmem => h text (mem_cons_of_mem _ hmem)
      have hfirst := meets_respellHoles_rel hR hrefl marked (h text mem_cons_self)
      exact hfirst.bind fun new hnew => hrest.bind fun literals hliterals =>
        .ok (.cons hnew hliterals)

theorem mem_fill (h : c ∈ fill literals items) : Item.code c ∈ items ∨ ∃ l ∈ literals, c ∈ l := by
  obtain ⟨i, hi, hc⟩ := mem_flatMap.mp h
  cases i with
  | code d =>
    obtain rfl : c = d := by simpa using hc
    exact .inl hi
  | mark n =>
    have hlookup : c ∈ literals.getD n [] := hc
    refine .inr ⟨literals.getD n [], ?_, hlookup⟩
    rw [getD_eq_getElem?_getD] at hlookup ⊢
    cases hl : literals[n]? with
    | none => simp [hl] at hlookup
    | some l => exact mem_of_getElem? (by simpa using hl)

theorem countP_fill (hset : ∀ c, set c = true → isQuote c = true) (hclean : Clean items) :
    (fill literals items).countP set = ((marks items).flatMap fun n =>
    literals.getD n []).countP set := by
  induction items with
  | nil => rfl
  | cons i items ih =>
    have hrest := ih hclean.tail
    cases i with
    | code c =>
      have hc := hclean.isQuote
      have hother : ¬ set c = true := fun hmem => by simp [hset c hmem] at hc
      show (c :: fill literals items).countP set = _
      rw [countP_cons_of_neg hother, hrest]
      rfl
    | mark n =>
      show (literals.getD n [] ++ fill literals items).countP set = _
      rw [countP_append, hrest, ← countP_append]
      rfl

theorem map_getD_range (l : List Text) : (range' 0 l.length).map (fun n => l.getD n []) = l := by
  apply ext_getElem
  · simp
  · intro i hi hlt
    simp [getD_eq_getElem?_getD, getElem?_eq_getElem hlt]

theorem flatMap_getD_range (l : List Text) :
    (range' 0 l.length).flatMap (fun n => l.getD n []) = l.flatten := by
  rw [flatMap_def, map_getD_range]

variable {f : Text → Text}

/-- A text whose literals can be masked: it has no null character, and not more quotes than there
are numbers for literals. -/
structure Maskable (t : Text) : Prop where
  null : '\x00' ∉ t
  quotes : t.countP isQuote ≤ Text.capacity

theorem Tame.maskable {out : Text} (h : Tame out t) (ht : Maskable t) : Maskable out :=
  ⟨h.null ht.null, Nat.le_trans h.quotes ht.quotes⟩

/-- Respelling keeps a compatible relation, down to any depth of holes, if filling in related
literals does. Nothing else fails if there are not too many quotes. -/
theorem meets_respellWithin_rel (hR : Compatible R) (hrefl : ∀ c, R [c] [c]) (hf : Respelling f)
    (hfill : ∀ {t : Text} {literals : List Text} {items : List Item},
    Forall₂ R literals (literalTexts (tokens t)) →
      Clean items → f (render (maskItems 0 (tokens t))) = render items →
      marks items = marks (maskItems 0 (tokens t)) →
        R (fill literals items) t) (depth : Nat) (ht : '\x00' ∉ t)
    (hfew : (∀ fault, fails fault) ∨ t.countP isQuote ≤ Text.capacity) :
    Meets fails (fun out => R out t) (respellWithin f depth t) := by
  induction depth generalizing t with
  | zero => exact .ok (hR.self hrefl t)
  | succ depth ih =>
    have hliterals := meets_respellLiterals_rel hR hrefl (tokens t) fun text htext hole hhole => by
      obtain ⟨token, htoken, rfl⟩ := exists_token_of_mem_literalTexts htext
      have hin := hhole.trans (token_isInfix htoken)
      exact ih (fun hmem => ht (hin.subset hmem))
        (hfew.imp_right (Nat.le_trans hin.sublist.countP_le))
    refine hliterals.bind fun literals hall => ?_
    obtain ⟨items, hclean, hrender, hmarks⟩ := hf _ (clean_maskItems ht)
    have hfilled := hfill hall hclean hrender hmarks
    rw [mask_eq_render, hrender]
    rcases hfew with hany | hfew
    · exact (meets_unmask_render hclean).mono (fun fault _ => hany fault) fun out hout =>
        hout ▸ hfilled
    · have hlength := length_literalTexts (tokens t)
      have hcount := countP_isLiteral_le t
      rw [unmask_render hclean fun n hn => ?_]
      · exact .ok hfilled
      · rw [hmarks, marks_maskItems, mem_range'_1] at hn
        rw [hall.length_eq, hlength]
        omega

theorem rel_flatten (hR : Compatible R) {as bs : List Text} (h : Forall₂ R as bs) :
    R as.flatten bs.flatten := by
  induction h with
  | nil => exact hR.nil
  | cons hfirst _ ih => exact hR.append hfirst ih

theorem literalTexts_sublist (t : Text) : (literalTexts (tokens t)).flatten <+ t := by
  have hall : ∀ ts : List Token, (literalTexts ts).flatten <+ ts.flatMap Token.text := by
    intro ts
    induction ts with
    | nil => exact .slnil
    | cons token ts ih =>
      cases token with
      | code c => exact ih.cons c
      | literal marked text => exact (Sublist.refl text).append ih
  have hin := hall (tokens t)
  rwa [flatMap_tokens] at hin

theorem countP_filled (hset : ∀ c, set c = true → isQuote c = true)
    (hall : Forall₂ R literals (literalTexts (tokens t))) (hclean : Clean items)
    (hmarks : marks items = marks (maskItems 0 (tokens t))) :
    (fill literals items).countP set = literals.flatten.countP set := by
  rw [marks_maskItems, ← length_literalTexts, ← hall.length_eq] at hmarks
  rw [countP_fill hset hclean, hmarks, flatMap_getD_range]

/-- Respelling the code of a text without null characters and with not too many quotes succeeds. -/
theorem meets_respellWithin (hf : Respelling f) (depth : Nat) (ht : '\x00' ∉ t)
    (hfew : (∀ fault, fails fault) ∨ t.countP isQuote ≤ Text.capacity) :
    Meets fails (fun out => Tame out t) (respellWithin f depth t) := by
  refine meets_respellWithin_rel compatible_tame (fun c => .refl [c]) hf
    (fun hall hclean _ hmarks => ?_) depth ht hfew
  have hflat := (rel_flatten compatible_tame hall).trans (.of_sublist (literalTexts_sublist _))
  refine ⟨fun hnull hmem => ?_, ?_⟩
  · rcases mem_fill hmem with hcode | ⟨l, hl, hmem⟩
    · exact absurd (hclean _ hcode) (by decide)
    · exact hflat.null hnull (mem_flatten.mpr ⟨l, hl, hmem⟩)
  · rw [countP_filled (fun _ h => h) hall hclean hmarks]
    exact hflat.quotes

theorem meets_respellOutside (hf : Respelling f) (ht : Maskable t) :
    Meets fails (fun out => Tame out t) (respellOutside f t) :=
  meets_respellWithin hf _ ht.null (.inr ht.quotes)

/-! ## Literals of a filled text -/

/-- The tokens among the items, each with whether the code before it ends in a mark. -/
def marksFrom (before : Text) : List Item → List (Bool × Nat)
  | [] => []
  | .code c :: items => marksFrom (c :: before) items
  | .mark n :: items => (endsInMark before, n) :: marksFrom ('\x00' :: before) items

theorem map_marksFrom (before : Text) (items : List Item) :
    (marksFrom before items).map Prod.snd = marks items := by
  induction items generalizing before with
  | nil => rfl
  | cons i items ih =>
    cases i with
    | code c => exact ih _
    | mark n => exact congrArg (n :: ·) (ih _)

/-- Every token names a literal, and only the literal of the last item may be open. -/
def Fillable (literals : List Text) : List Item → Prop
  | [] => True
  | .code _ :: items => Fillable literals items
  | .mark n :: items =>
    (isClosed (literals.getD n []) = true ∨ isOpen (literals.getD n []) = true ∧ items = []) ∧
      Fillable literals items

theorem literalsFrom_fill (hclean : Clean items) (hfill : Fillable literals items) (before : Text) :
    literalsFrom before (fill literals items) =
      (marksFrom before items).map fun mark => (mark.1, literals.getD mark.2 []) := by
  induction items generalizing before with
  | nil => rfl
  | cons i items ih =>
    cases i with
    | code c =>
      exact (literalsFrom_code hclean.isQuote before _).trans (ih hclean.tail hfill _)
    | mark n =>
      show literalsFrom before (literals.getD n [] ++ fill literals items) = _
      rcases hfill.1 with hclosed | ⟨hopen, rfl⟩
      · rw [literalsFrom_closed hclosed, ih hclean.tail hfill.2]
        rfl
      · rw [show fill literals [] = [] from rfl, append_nil, literalsFrom_open hopen]
        rfl

theorem map_literalsOf_fill (hclean : Clean items)
    (hfill : Fillable literals items) (hmarks : marks items = range' 0 literals.length) :
    (literalsOf (fill literals items)).map Prod.snd = literals := by
  rw [literalsOf, literalsFrom_fill hclean hfill, map_map]
  have hcompose :
      (marksFrom [] items).map (Prod.snd ∘ fun mark => (mark.1, literals.getD mark.2 [])) =
      ((marksFrom [] items).map Prod.snd).map fun n => literals.getD n [] := by
    rw [map_map]
    rfl
  rw [hcompose, map_marksFrom, hmarks, map_getD_range]

/-- Filling the masked tokens with their own literals gives the text, and it can be done. -/
theorem fill_maskItems {ts : List Token} (hts : Scanned ts) (earlier : List Text) :
    fill (earlier ++ literalTexts ts) (maskItems earlier.length ts) = ts.flatMap Token.text ∧
      Fillable (earlier ++ literalTexts ts) (maskItems earlier.length ts) := by
  induction ts generalizing earlier with
  | nil => exact ⟨rfl, trivial⟩
  | cons token ts ih =>
    cases token with
    | code c =>
      obtain ⟨hfill, hfillable⟩ := ih hts.2 earlier
      exact ⟨congrArg (c :: ·) hfill, hfillable⟩
    | literal marked text =>
      obtain ⟨hfill, hfillable⟩ := ih hts.2 (earlier ++ [text])
      have hassoc : earlier ++ literalTexts (.literal marked text :: ts) = (earlier ++ [text]) ++
          literalTexts ts := by
        rw [append_assoc]
        rfl
      have hfirst :
          ((earlier ++ [text]) ++ literalTexts ts).getD earlier.length [] = text := by simp
      rw [length_append, length_singleton] at hfill hfillable
      rw [hassoc]
      constructor
      · show ((earlier ++ [text]) ++ literalTexts ts).getD earlier.length [] ++ fill _ _ = text ++
          ts.flatMap _
        rw [hfirst, hfill]
      · refine ⟨?_, hfillable⟩
        rw [hfirst]
        exact hts.1.imp_right fun hopen => ⟨hopen.1, by rw [hopen.2]; rfl⟩

theorem fill_tokens (t : Text) : fill (literalTexts (tokens t)) (maskItems 0 (tokens t)) = t ∧
      Fillable (literalTexts (tokens t)) (maskItems 0 (tokens t)) := by
  obtain ⟨hfill, hfillable⟩ := fill_maskItems (scanned_tokens t) []
  exact ⟨hfill.trans (flatMap_tokens t), hfillable⟩

theorem literalsOf_eq_map (ht : '\x00' ∉ t) :
    literalsOf t = (marksFrom [] (maskItems 0 (tokens t))).map fun mark =>
      (mark.1, (literalTexts (tokens t)).getD mark.2 []) := by
  have hliterals := literalsFrom_fill (clean_maskItems ht) (fill_tokens t).2 []
  rw [(fill_tokens t).1] at hliterals
  exact hliterals

end CodeConverter.Literal

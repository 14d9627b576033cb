import CodeConverter.Proofs.Literal.Masked

/-!
# Respelling outside literals

A respelling of masked texts gives a respelling of the code outside literals that always succeeds:
the tokens that come out are those that went in, so each names a literal (`meets_respellOutside`).
-/

namespace CodeConverter.Literal

open Pattern List

/-- The text is a masked text with the same tokens as the items, in the same order. -/
def Respelled (items : List Item) (t : Text) : Prop :=
  ∃ items', Clean items' ∧ t = render items' ∧ marks items' = marks items

/-- Masked texts are sent to masked texts with the same tokens in the same order. -/
def Respelling (f : Text → Text) : Prop :=
  ∀ items, Clean items → Respelled items (f (render items))

theorem Respelling.apply {f : Text → Text} (hf : Respelling f) {items : List Item} {t : Text}
    (h : Respelled items t) : Respelled items (f t) := by
  obtain ⟨items', hclean, rfl, hmarks⟩ := h
  obtain ⟨items'', hclean', hrender, hmarks'⟩ := hf items' hclean
  exact ⟨items'', hclean', hrender, hmarks'.trans hmarks⟩

theorem Respelled.refl {items : List Item} (h : Clean items) : Respelled items (render items) :=
  ⟨items, h, rfl, rfl⟩

/-- Every match of the pattern is sealed. -/
def FindsSealed (p : Pattern) : Prop :=
  ∀ (subject : Text) (m : Match), m.Of p subject → Sealed m.whole

/-- What replaces a match is masked text with the tokens of the match. -/
def KeepsTokens (p : Pattern) (g : Match → Text) : Prop :=
  ∀ subject m items, m.Of p subject → m.whole = render items → Clean items → Respelled items (g m)

variable {p : Pattern} {g : Match → Text}

theorem matchAt_in_token (hp : FindsSealed p) (digits tail : Text) {subject : Text}
    {s : Pattern.State} (hdigits : ∀ c ∈ digits, c.isDigit = true)
    (hs : s.Within subject) (hahead : s.ahead = digits ++ '\x00' :: tail) :
    p.matchAt subject s = none := by
  cases hm : p.matchAt subject s with
  | none => rfl
  | some m =>
    obtain ⟨hof, hfirst⟩ := of_matchAt hm hs
    have heq := hof.ahead_eq
    rw [hfirst, hahead] at heq
    exact absurd heq ((hp _ _ hof).not_in_token hdigits)

theorem within_past {s : Pattern.State} {subject a b : Text} (hs : s.Within subject)
    (hahead : s.ahead = a ++ b) : (s.past a b).Within subject := by
  obtain ⟨passed, hsubject, hindex, hbefore⟩ := hs
  refine ⟨passed ++ a, ?_, ?_, ?_⟩
  · rw [hsubject, hahead, append_assoc]
    rfl
  · rw [length_append, ← hindex]
    rfl
  · rw [getLast?_append, ← hbefore]
    rfl

section

variable (hp : FindsSealed p)

include hp

/-- A token is cut into its characters by a sealed pattern. -/
theorem segmentsFrom_token {n : Nat}
    {subject fuel tail : Text} {s : Pattern.State} (hs : s.Within subject)
    (hahead : s.ahead = maskToken n ++ tail) (hfuel : (maskToken n).length ≤ fuel.length) :
    p.segmentsFrom subject fuel s = (maskToken n).map .plain ++
      p.segmentsFrom subject (fuel.drop (maskToken n).length) (s.past (maskToken n) tail) := by
  refine segmentsFrom_skip hahead hfuel fun a b hab hb => ?_
  have hwithin : (s.past a (b ++ tail)).Within subject :=
    within_past hs (by rw [hahead, hab, append_assoc])
  have hdecimal : ∀ c ∈ Text.decimal n, c.isDigit = true := fun c => Text.isDigit_of_mem_decimal
  -- The rest of a token is its opening null character or digits before its closing one.
  cases a with
  | nil =>
    refine matchAt_in_token hp [] (.decimal n ++ '\x00' :: tail) (by simp) hwithin ?_
    have hb : b = maskToken n := by simpa using hab.symm
    simp [State.past, hb, maskToken]
  | cons c a =>
    obtain ⟨-, hrest⟩ := cons.inj (by simpa [maskToken] using hab)
    rcases append_eq_append_iff.mp hrest with ⟨c', hc', hb'⟩ | ⟨c', hc', hb'⟩
    · cases c' with
      | nil =>
        refine matchAt_in_token hp [] tail (by simp) hwithin ?_
        have hclose : b = ['\x00'] := by simpa using hb'.symm
        simp [State.past, hclose]
      | cons d c' =>
        have hsplit : '\x00' = d ∧ c' = [] ∧ b = [] := by simpa using hb'
        exact absurd hsplit.2.2 hb
    · refine matchAt_in_token hp c' tail (fun x hx => ?_) hwithin ?_
      · exact hdecimal x (by rw [hc']; exact mem_append_right _ hx)
      · simp [State.past, hb']

theorem matchAt_at_end {subject : Text}
    {s : Pattern.State} (hs : s.Within subject) (hahead : s.ahead = []) :
    p.matchAt subject s = none := by
  cases hm : p.matchAt subject s with
  | none => rfl
  | some m =>
    obtain ⟨hof, hfirst⟩ := of_matchAt hm hs
    have heq := hof.ahead_eq
    rw [hfirst, hahead] at heq
    exact absurd (append_eq_nil_iff.mp heq.symm).1 (hp _ _ hof).ne_nil

/-- Replacing the matches of a sealed pattern from a place in a masked text on. -/
theorem respelling_segmentsFrom
    (hg : KeepsTokens p g) (subject : Text) (n : Nat) {fuel : Text} {s : Pattern.State}
    {items : List Item} (hn : items.length ≤ n) (hs : s.Within subject)
    (hahead : s.ahead = render items) (hfuel : s.ahead.length ≤ fuel.length)
    (hclean : Clean items) :
    Respelled items ((p.segmentsFrom subject fuel s).flatMap (replaced g)) := by
  induction n generalizing fuel s items with
  | zero =>
    obtain rfl : items = [] := length_eq_zero_iff.mp (by omega)
    refine ⟨[], hclean, ?_, rfl⟩
    rw [segmentsFrom_at_end (matchAt_at_end hp hs hahead) hahead]
    rfl
  | succ n ih =>
    cases items with
    | nil => exact ih (Nat.zero_le _) hs hahead hfuel hclean
    | cons i items =>
      have hlength : items.length ≤ n := by simpa using hn
      cases i with
      | mark k =>
        have htoken : s.ahead = maskToken k ++ render items := hahead
        rw [htoken, length_append] at hfuel
        obtain ⟨items', hclean', hrender, hmarks⟩ :=
          @ih (fuel.drop (maskToken k).length) (s.past (maskToken k) (render items)) _
            hlength (within_past hs htoken) rfl (by rw [length_drop]; simp only [State.past]; omega)
            hclean.tail
        refine ⟨.mark k :: items', fun c hc => hclean' c (by simpa using hc), ?_, by simp [hmarks]⟩
        rw [segmentsFrom_token hp hs htoken (by omega), flatMap_append, hrender, render_mark_cons]
        simp [flatMap_map, replaced]
      | code c =>
        have hcode : s.ahead = c :: render items := hahead
        cases fuel with
        | nil => simp [hcode] at hfuel
        | cons d fuel =>
          rw [hcode] at hfuel
          cases hm : p.matchAt subject s with
          | none =>
            obtain ⟨items', hclean', hrender, hmarks⟩ :=
              @ih fuel _ _ hlength (hs.advance hcode) rfl (by simpa [State.advance] using hfuel)
                hclean.tail
            refine ⟨.code c :: items', ?_, ?_, hmarks⟩
            · intro x hx
              rcases mem_cons.mp hx with hx | hx
              · obtain rfl : x = c := by simpa using hx
                exact hclean x mem_cons_self
              · exact hclean' x hx
            · rw [segmentsFrom_of_none hm hcode, flatMap_cons, hrender]
              rfl
          | some m =>
            obtain ⟨hof, hfirst⟩ := of_matchAt hm hs
            have hsealed := hp _ _ hof
            have heq := hof.ahead_eq
            have hindex := hof.index_eq
            have hpos := length_pos_iff.mpr hsealed.ne_nil
            rw [hfirst] at heq hindex
            obtain ⟨before, after, hitems, hwhole, hlast⟩ := hsealed.split (by rw [← hahead, heq])
            have hbefore : before ≠ [] := by
              rintro rfl
              exact hsealed.ne_nil hwhole
            have hafter : after.length ≤ n := by
              have := congrArg length hitems
              have := length_pos_iff.mpr hbefore
              simp only [length_cons, length_append] at *
              omega
            rw [hitems] at hclean ⊢
            obtain ⟨items₁, hclean₁, hrender₁, hmarks₁⟩ :=
              hg subject m before hof hwhole hclean.left
            obtain ⟨items₂, hclean₂, hrender₂, hmarks₂⟩ :=
              @ih fuel _ _ hafter hof.last_within hlast (by
                have := congrArg length heq
                simp only [hcode, length_cons, length_append] at this hfuel
                omega) hclean.right
            refine ⟨items₁ ++ items₂, hclean₁.append hclean₂, ?_, by simp [hmarks₁, hmarks₂]⟩
            rw [segmentsFrom_of_match hm (by omega), flatMap_cons, hrender₂, render_append,
              ← hrender₁]
            rfl

theorem respelling_replaceBy
    (hg : KeepsTokens p g) : Respelling (p.replaceBy g) := fun items hclean =>
  respelling_segmentsFrom hp hg (render items) items.length (Nat.le_refl _)
    (Pattern.State.start_within _) rfl (Nat.le_refl _) hclean

end

/-- Replacing matches that reach over no token is a respelling. Each match has a solid character,
and its replacement adds only clean ones. -/
theorem respelling_of_clear (hnull : p.uses '\x00' = false)
    (hsolid : ∀ (subject : Text) (m : Match), m.Of p subject → ∃ c ∈ m.whole, isSolid c = true)
    (hg : ∀ (subject : Text) (m : Match), m.Of p subject →
      ∀ c ∈ g m, c ∈ m.whole ∨ isClean c = true) : Respelling (p.replaceBy g) := by
  have hplain : ∀ (subject : Text) (m : Match), m.Of p subject → '\x00' ∉ m.whole := by
    intro subject m hof hmem
    have huses := hof.reads.uses hmem
    rw [hnull] at huses
    cases huses
  refine respelling_replaceBy ?_ ?_
  · intro subject m hof
    obtain ⟨c, hc, hsolid⟩ := hsolid subject m hof
    obtain ⟨a, b, hab⟩ := append_of_mem hc
    have hnone := hplain subject m hof
    rw [hab, mem_append, mem_cons, not_or, not_or] at hnone
    exact ⟨a, c, b, hab, hnone.1, hsolid, .inl hnone.2.2⟩
  · intro subject m items hof hwhole hclean
    obtain rfl := eq_codes_of_render (hplain subject m hof) hwhole.symm
    refine ⟨codes (g m), clean_codes_iff.mpr fun c hc => ?_, by simp, by simp⟩
    rcases hg subject m hof c hc with hc | hc
    · exact clean_codes_iff.mp hclean c hc
    · exact hc

theorem respelling_replaceWith {new : Text}
    (h : p.uses '\x00' = false ∧ p.needs isSolid = true ∧ new.all isClean = true) :
    Respelling (p.replaceWith new) :=
  respelling_of_clear h.1 (fun _ _ hof => hof.reads.needs h.2.1)
    fun _ _ _ c hc => .inr (all_eq_true.mp h.2.2 c hc)

theorem Respelled.replaced {items : List Item} {new t : Text}
    (hp : p.uses '\x00' = false ∧ p.needs isSolid = true ∧ new.all isClean = true)
    (h : Respelled items t) : Respelled items (p.replaceWith new t) :=
  (respelling_replaceWith hp).apply h

theorem respelling_replace {old new : Text}
    (h : old.contains '\x00' = false ∧ old.any isSolid = true ∧ new.all isClean = true) :
    Respelling (Text.replace old new) := by
  have hne : old ≠ [] := by
    rintro rfl
    cases h.2.1
  have heq : Text.replace old new = (Pattern.literal old).replaceWith new :=
    funext (replace_eq_replaceWith hne new)
  rw [heq]
  exact respelling_replaceWith h

/-- Replacing matches that reach over tokens between two solid characters is a respelling if what
stands between them stays. -/
theorem respelling_of_enclosed
    (hg : ∀ (subject : Text) (m : Match), m.Of p subject → ∃ a c mid d a' b',
      m.whole = a ++ c :: (mid ++ [d]) ∧ '\x00' ∉ a ∧ isSolid c = true ∧ isSolid d = true ∧
      g m = a' ++ (mid ++ b') ∧ (∀ x ∈ a', isClean x = true) ∧ ∀ x ∈ b', isClean x = true) :
    Respelling (p.replaceBy g) := by
  refine respelling_replaceBy ?_ ?_
  · intro subject m hof
    obtain ⟨a, c, mid, d, -, -, hwhole, ha, hc, hd, -⟩ := hg subject m hof
    exact ⟨a, c, mid ++ [d], hwhole, ha, hc, .inr ⟨mid, d, rfl, hd⟩⟩
  · intro subject m items hof hrender hclean
    obtain ⟨a, c, mid, d, a', b', hwhole, ha, hc, hd, hgm, ha', hb'⟩ := hg subject m hof
    obtain ⟨before, after, rfl, hbefore, hafter⟩ := split_at_solid hc (hrender.symm.trans hwhole)
    obtain ⟨inner, last, rfl, hinner, hlast⟩ := split_at_solid hd hafter.symm
    obtain rfl := eq_codes_of_render ha hbefore.symm
    obtain rfl := eq_codes_of_render (t := []) (by simp) hlast.symm
    refine ⟨codes a' ++ (inner ++ codes b'), ?_, ?_, ?_⟩
    · exact (clean_codes_iff.mpr ha').append
        (hclean.right.tail.left.append (clean_codes_iff.mpr hb'))
    · rw [hgm]
      simp [hinner]
    · simp

/-- Replacing a call and keeping its argument is a respelling. -/
theorem respelling_of_call {front body : Pattern} {k : Nat} {opening closing w : Text} {c d : Char}
    (hfront : front.uses '\x00' = false) (hopening : opening = w ++ [c]) (hclosing : closing = [d])
    (hw : '\x00' ∉ w) (hc : isSolid c = true) (hd : isSolid d = true)
    (hg : ∀ (subject : Text) (m : Match),
      m.Of (.seq (.seq (.seq front (.literal opening)) (.group k body)) (.literal closing))
      subject →
      ∃ a b, g m = a ++ (m.group k ++ b) ∧ (∀ x ∈ a, isClean x = true) ∧ ∀ x ∈ b,
      isClean x = true) : Respelling (Pattern.replaceBy
      (.seq (.seq (.seq front (.literal opening)) (.group k body)) (.literal closing)) g) := by
  subst hopening hclosing
  refine respelling_of_enclosed fun subject m hof => ?_
  obtain ⟨a', b', hgm, ha', hb'⟩ := hg subject m hof
  obtain ⟨a, s, u, hstart, -, hwhole, -, -⟩ := hof.enclosed
  obtain ⟨x, v, y, rfl, hx, hy⟩ := reads_seq_iff.mp hstart
  obtain ⟨rfl, -⟩ := reads_literal_iff.mp hy
  refine ⟨x ++ w, c, m.group k, d, a', b', by rw [hwhole]; simp, ?_, hc, hd, hgm, ha', hb'⟩
  rw [mem_append, not_or]
  refine ⟨fun hmem => ?_, hw⟩
  have huses := hx.uses hmem
  rw [hfront] at huses
  cases huses

end CodeConverter.Literal

import CodeConverter.Proofs.Expression.Total
import CodeConverter.Proofs.Spelling.Unmarked

/-!
# Literals in expressions

Respelling outside literals leaves plain literals alone, one respelling after another. What an
expression goes through before that looks at the whole text: backticks are paired, marked literals
are found, casts and empty collections of Java are replaced, also in the contents of a literal. So
the literals are the same at the end exactly if the first step leaves them (`keepsLiterals_iff`).
-/

namespace CodeConverter

open Pattern Literal Text Spelling List Expression.ToPython

variable {x : Except Fault Text}

namespace Expression

/-- There is a result, and scanning it gives the literals of the text in the same order. -/
def KeepsLiterals (t : Text) (out : Except Fault Text) : Prop :=
  ∃ r, out = .ok r ∧ (literalsOf r).map Prod.snd = (literalsOf t).map Prod.snd

instance (t : Text) (out : Except Fault Text) : Decidable (KeepsLiterals t out) :=
  match out with
  | .ok r => decidable_of_iff ((literalsOf r).map Prod.snd = (literalsOf t).map Prod.snd)
      ⟨fun h => ⟨r, rfl, h⟩, fun ⟨_, heq, h⟩ => by cases heq; exact h⟩
  | .error _ => .isFalse fun ⟨_, heq, _⟩ => by cases heq

variable {f : Text → Text} {t u : Text}

section Quotes

variable {set : Char → Bool} (hset : ∀ c, set c = true → isQuote c = true)

include hset

theorem meets_respellOutside_countP (hf : Respelling f) (ht : Maskable t) :
    Meets (fun _ => False) (fun out => Maskable out ∧ out.countP set ≤ t.countP set)
    (respellOutside f t) := by
  refine ((meets_respellOutside hf ht).and
    (meets_respellWithin_countP hset hf (t.length + 1) ht.null)).imp ?_
  exact fun out hout => ⟨hout.1.maskable ht, hout.2⟩

theorem ToPython.meets_ofBraces_countP (ht : Maskable t) :
    Meets (fun _ => False) (fun out => Maskable out ∧ out.countP set ≤ t.countP set)
    (ofBraces t) := by
  refine (meets_respellOutside_countP hset respelling_dropNew ht).bind fun u hu => ?_
  refine (meets_respellOutside_countP hset respelling_toWords hu.1).imp fun out hout => ?_
  exact ⟨hout.1, Nat.le_trans hout.2 hu.2⟩

theorem map_literalsOf_ne (h : u.countP set < t.countP set) :
    (literalsOf u).map Prod.snd ≠ (literalsOf t).map Prod.snd := by
  intro heq
  rw [← countP_literalsOf hset u, ← countP_literalsOf hset t, heq] at h
  exact Nat.lt_irrefl _ h

end Quotes

theorem meets_respellOutside_plain (hf : Respelling f) (ht : Maskable t)
    (hplain : PlainLiterals t) :
    Meets (fun _ => False) (fun out => Maskable out ∧
    (literalsOf out).map Prod.snd = (literalsOf t).map Prod.snd ∧
        (Unmarked (f (mask 0 (tokens t))).reverse → literalsOf out = literalsOf t))
        (respellOutside f t) := by
  refine ((meets_respellOutside hf ht).and
    (meets_respellWithin_plain hf t.length ht.null hplain)).imp ?_
  exact fun out hout => ⟨hout.1.maskable ht, hout.2⟩

theorem meets_respellOutside_same (hf : Respelling f) (hkeeps : KeepsUnmarked f) (ht : Maskable t)
    (hplain : PlainLiterals t) :
    Meets (fun _ => False) (fun out => Maskable out ∧ literalsOf out = literalsOf t)
    (respellOutside f t) :=
  (meets_respellOutside_plain hf ht hplain).imp fun _ hout =>
    ⟨hout.1, hout.2.2 (hkeeps _ (hplain.unmarked ht.null))⟩

theorem ToPython.meets_ofBraces_same (ht : Maskable t) (hplain : PlainLiterals t)
    (hlines : UnmarkedLines t.reverse) :
    Meets (fun _ => False) (fun out => Maskable out ∧ literalsOf out = literalsOf t)
    (ofBraces t) := by
  have hdropped : Unmarked (dropNew (mask 0 (tokens t))).reverse :=
    unmarked_dropWord rfl rfl (hplain.unmarked ht.null) (hplain.unmarkedLines hlines)
  refine (meets_respellOutside_plain respelling_dropNew ht hplain).bind fun u hu => ?_
  have hsame := hu.2.2 hdropped
  have hplain' : PlainLiterals u := fun l hl => hplain l (hsame ▸ hl)
  refine (meets_respellOutside_same respelling_toWords keepsUnmarked_toWords hu.1 hplain').imp
    fun out hout => ?_
  exact ⟨hout.1, hout.2.trans hsame⟩

theorem keepsLiterals_bind (hf : Respelling f) (hplain : PlainLiterals t)
    (hx : Meets (fun _ => False) (fun out => Maskable out ∧ literalsOf out = literalsOf t) x) :
    KeepsLiterals t (x >>= respellOutside f) := by
  refine (hx.bind fun u hu => ?_).exists_ok
  have hplain' : PlainLiterals u := fun l hl => hplain l (hu.2 ▸ hl)
  exact (meets_respellOutside_plain hf hu.1 hplain').imp fun out hout => hu.2 ▸ hout.2.1

theorem not_keepsLiterals_bind {set : Char → Bool}
    (hset : ∀ c, set c = true → isQuote c = true) (hf : Respelling f)
    (hx : Meets (fun _ => False) (fun out => Maskable out ∧ out.countP set < t.countP set) x) :
    ¬ KeepsLiterals t (x >>= respellOutside f) := by
  rintro ⟨r, heq, hsame⟩
  have hless :
      Meets (fun _ => False) (fun out => out.countP set < t.countP set) (x >>= respellOutside f) :=
    hx.bind fun u hu => (meets_respellOutside_countP hset hf hu.1).imp fun out hout =>
      Nat.lt_of_le_of_lt hout.2 hu.2
  rw [heq] at hless
  exact map_literalsOf_ne hset hless.of_ok hsame

theorem backtickLiteral_whole {m : Match} (hof : m.Of backtickLiteral t) :
    m.whole = '`' :: m.group 1 ++ ['`'] :=
  hof.whole_eq

/-- Backticks are paired wherever they stand. -/
theorem occursIn_backtickLiteral : backtickLiteral.occursIn t = false ↔ t.count '`' < 2 := by
  constructor
  · intro hnone
    by_contra hcount
    obtain ⟨a, b, rfl, ha⟩ := eq_append_cons_of_mem (count_pos_iff.mp (by omega : 0 < t.count '`'))
    have hlater : 0 < b.count '`' := by
      rw [count_append, count_eq_zero.mpr ha, count_cons_self] at hcount
      omega
    obtain ⟨c, d, rfl, hc⟩ := eq_append_cons_of_mem (count_pos_iff.mp hlater)
    have hcontents : ∀ e ∈ c, except "`" e = true := fun e he => by
      have hne : e ≠ '`' := fun heq => hc (heq ▸ he)
      simpa [except] using hne
    have hoccurs : backtickLiteral.occursIn (a ++ '`' :: (c ++ '`' :: d)) = true :=
      occursIn_of_reads
        (.seq (.seq (.literal _ ['`'] _ rfl) (.group 1 (.chars _ _ _ c ('`' :: d) rfl hcontents)))
        (.literal _ ['`'] d rfl))
    rw [hnone] at hoccurs
    cases hoccurs
  · intro hcount
    rw [Bool.eq_false_iff]
    intro hoccurs
    obtain ⟨m, hof⟩ := occursIn_iff.mp hoccurs
    have hle : m.whole.count '`' ≤ t.count '`' := hof.whole_isInfix.sublist.count_le _
    rw [backtickLiteral_whole hof] at hle
    simp at hle
    omega

theorem countP_backtickToMarked (h : backtickLiteral.occursIn t = true) :
    (backtickToMarked t).countP (· == '`') < t.countP (· == '`') := by
  refine countP_replaceBy_lt h fun m hof => ?_
  have hholes : (dollarToBrace (m.group 1)).countP (· == '`') ≤ (m.group 1).countP (· == '`') := by
    refine replaceBy_rel (compatible_countP_le (· == '`')) (fun _ _ => Nat.le_refl _)
      fun h hof => ?_
    have hinner := (hof.group_isInfix 1).sublist.countP_le (p := (· == '`'))
    simpa using hinner
  rw [backtickLiteral_whole hof]
  simp at hholes ⊢
  omega

theorem countP_markedToBacktick (h : markedLiteral.occursIn t = true) :
    (markedToBacktick t).countP isPlainQuote < t.countP isPlainQuote := by
  have hbacktick : ("`" : Text).countP isPlainQuote = 0 := by decide
  refine countP_replaceBy_lt h fun m hof => ?_
  obtain ⟨q, hq, hwhole⟩ := markedLiteral_whole hof
  have hholes : (braceField.replaceBy (fun h => "$\x7b" ++ h.group 1 ++ "\x7d") (m.group 2)).countP
      isPlainQuote ≤ (m.group 2).countP isPlainQuote := by
    refine replaceBy_rel (compatible_countP_le isPlainQuote) (fun _ _ => Nat.le_refl _)
      fun h hof => ?_
    have hinner := (hof.group_isInfix 1).sublist.countP_le (p := isPlainQuote)
    simpa [isPlainQuote] using hinner
  rw [hwhole, countP_append, countP_append, countP_cons_of_neg (by decide),
    countP_cons_of_pos hq, countP_append, countP_cons_of_pos hq]
  omega

theorem replaceBy_eq_self {p : Pattern} {g : Match → Text} (h : p.occursIn t = false) :
    p.replaceBy g t = t :=
  replaceBy_eq_self_of_not_of fun m hof => by
    rw [occursIn_iff.mpr ⟨m, hof⟩] at h
    cases h

/-- Literals are kept exactly if none is a template. -/
theorem ToPython.keepsLiterals_ofJavaScript (ht : Maskable t) (hplain : PlainLiterals t)
    (hlines : UnmarkedLines t.reverse) :
    KeepsLiterals t (ofJavaScript t) ↔ backtickLiteral.occursIn t = false := by
  cases hoccurs : backtickLiteral.occursIn t with
  | false =>
    rw [ofJavaScript, backtickToMarked, replaceBy_eq_self hoccurs]
    exact iff_of_true (keepsLiterals_bind respelling_javascriptCalls hplain
      (meets_ofBraces_same ht hplain hlines)) rfl
  | true =>
    have hquote : ∀ c : Char, (c == '`') = true → isQuote c = true := by
      intro c hc
      rw [eq_of_beq hc]
      rfl
    refine iff_of_false (not_keepsLiterals_bind hquote respelling_javascriptCalls ?_)
      (by simp)
    refine (meets_ofBraces_countP hquote ((tame_backtickToMarked t).maskable ht)).imp
      fun out hout => ?_
    exact ⟨hout.1, Nat.lt_of_le_of_lt hout.2 (countP_backtickToMarked hoccurs)⟩

theorem ToPython.keepsLiterals_ofJava (ht : Maskable t)
    (hplain : PlainLiterals (plainJava t))
    (hlines : UnmarkedLines (plainJava t).reverse) :
    KeepsLiterals (plainJava t) (ofJava t) :=
  keepsLiterals_bind respelling_javaCalls hplain
    (meets_ofBraces_same ((tame_plainJava t).maskable ht) hplain hlines)

/-- Literals are kept exactly if none is marked. -/
theorem ToJavaScript.keepsLiterals_ofPython (ht : Maskable t) (hplain : PlainLiterals t) :
    KeepsLiterals t (ToJavaScript.ofPython t) ↔ markedLiteral.occursIn t = false := by
  have hrespelling : Respelling (toSymbols true "this.") := respelling_toSymbols true rfl
  cases hoccurs : markedLiteral.occursIn t with
  | false =>
    rw [ToJavaScript.ofPython, markedToBacktick, replaceBy_eq_self hoccurs]
    exact iff_of_true (keepsLiterals_bind ToJavaScript.respelling_pythonCalls hplain
      (meets_respellOutside_same hrespelling keepsUnmarked_toSymbols ht hplain)) rfl
  | true =>
    have hquote : ∀ c : Char, isPlainQuote c = true → isQuote c = true := by
      intro c hc
      simp only [isPlainQuote, Bool.or_eq_true, decide_eq_true_eq] at hc
      rcases hc with rfl | rfl <;> rfl
    refine iff_of_false (not_keepsLiterals_bind hquote ToJavaScript.respelling_pythonCalls ?_)
      (by simp)
    have hmaskable := (tame_markedToBacktick t).maskable ht
    refine (meets_respellOutside_countP hquote hrespelling hmaskable).imp fun out hout => ?_
    exact ⟨hout.1, Nat.lt_of_le_of_lt hout.2 (countP_markedToBacktick hoccurs)⟩

theorem ToPython.plainJava_eq_self (h : '(' ∉ t) : plainJava t = t := by
  have hnone : ∀ p : Pattern, p.needs (· == '(') = true → ∀ new, p.replaceWith new t = t := by
    intro p hp new
    refine replaceBy_eq_self_of_not_of fun m hof => ?_
    obtain ⟨c, hc, hset⟩ := hof.reads.needs hp
    obtain rfl : c = '(' := by simpa using hset
    exact h (hof.whole_isInfix.subset hc)
  simp only [plainJava]
  rw [hnone _ rfl, hnone _ rfl, hnone _ rfl]

/-- What becomes of plain literals in an expression. They are kept if there are less than two
backticks in them, in JavaScript; if replacing casts and empty collections keeps them, in Java; if
no `f` in them or before them looks like the mark of a literal, in Python. Otherwise they are
not. -/
theorem keepsLiterals_iff (ht : Maskable t) (hplain : PlainLiterals t) :
    (UnmarkedLines t.reverse → (KeepsLiterals t (ofJavaScript t) ↔ t.count '`' < 2)) ∧
    (PlainLiterals (plainJava t) → UnmarkedLines (plainJava t).reverse →
      (KeepsLiterals t (ofJava t) ↔
        (literalsOf (plainJava t)).map Prod.snd = (literalsOf t).map Prod.snd)) ∧
    (UnmarkedLines t.reverse → '(' ∉ t → KeepsLiterals t (ofJava t)) ∧
    (KeepsLiterals t (ToJavaScript.ofPython t) ↔ markedLiteral.occursIn t = false) := by
  refine ⟨fun hlines => ?_, fun hplain' hlines => ?_, fun hlines hnone => ?_,
    ToJavaScript.keepsLiterals_ofPython ht hplain⟩
  · rw [← occursIn_backtickLiteral]
    exact keepsLiterals_ofJavaScript ht hplain hlines
  · obtain ⟨r, hr, hsame⟩ := keepsLiterals_ofJava ht hplain' hlines
    rw [← hsame, hr]
    constructor
    · rintro ⟨_, ⟨⟩, h⟩
      exact h
    · exact fun h => ⟨r, rfl, h⟩
  · have hself := plainJava_eq_self hnone
    have hkeeps := @keepsLiterals_ofJava t ht
    rw [hself] at hkeeps
    exact hkeeps hplain hlines

/-- A single backtick, operators and escaped quotes in literals, and a cast outside of them. -/
theorem keepsLiterals_iff_cast : let t : Text := "(int) n + \" && ` \\\" \" + 'x || y'"
    (Maskable t ∧ PlainLiterals t ∧ UnmarkedLines t.reverse ∧ PlainLiterals (plainJava t) ∧
        UnmarkedLines (plainJava t).reverse) ∧
      KeepsLiterals t (ofJavaScript t) ∧ KeepsLiterals t (ofJava t) ∧
        KeepsLiterals t (ToJavaScript.ofPython t) := by
  intro t
  have ht : Maskable t := ⟨by decide, Nat.le_trans (by decide) Text.ten_le_capacity⟩
  have hplain : PlainLiterals t := by decide +kernel
  have hplain' : PlainLiterals (plainJava t) := by decide +kernel
  have hline : ∀ u : Text, '\n' ∉ u → UnmarkedLines u.reverse := by
    intro u hu
    rw [← append_nil u.reverse]
    exact .append (fun a b heq => by simp at heq) (mt mem_reverse.mp hu)
  have hlines := hline t (by decide)
  have hlines' := hline (plainJava t) (by decide +kernel)
  obtain ⟨hjavascript, hjava, -, hpython⟩ := keepsLiterals_iff ht hplain
  exact ⟨⟨ht, hplain, hlines, hplain', hlines'⟩, (hjavascript hlines).mpr (by decide),
    (hjava hplain' hlines').mpr (by decide +kernel), hpython.mpr (by decide +kernel)⟩

/-- A text with plain literals that are not kept. -/
def Alters (expression : Text → Except Fault Text) (t : Text) : Prop :=
  Maskable t ∧ PlainLiterals t ∧ ¬ KeepsLiterals t (expression t)

/-- Plain literals are not always kept: what looks like a cast, a pair of backticks or a marked
literal is taken for one inside literals and across them. A mark may also come to stand before a
literal, when what stood between them is dropped. -/
theorem plainLiterals_altered : Alters ofJava "\"(int) x\"" ∧
    Alters ofJavaScript "\"`a`\"" ∧
      Alters ToJavaScript.ofPython "['f', 'g']" ∧ Alters ofJava "f(int)\"{a && b}\"" ∧
      Alters ofJavaScript "f\nnew \"{a && b}\"" := by
  have hmaskable : ∀ t : Text, t.contains '\x00' = false → t.countP isQuote ≤ 10 → Maskable t :=
    fun t hnull hquotes => ⟨by simpa using hnull, Nat.le_trans hquotes Text.ten_le_capacity⟩
  refine ⟨⟨hmaskable _ (by decide) (by decide), ?_⟩, ⟨hmaskable _ (by decide) (by decide), ?_⟩,
    ⟨hmaskable _ (by decide) (by decide), ?_⟩, ⟨hmaskable _ (by decide) (by decide), ?_⟩,
    ⟨hmaskable _ (by decide) (by decide), ?_⟩⟩
  all_goals decide +kernel

end Expression

end CodeConverter

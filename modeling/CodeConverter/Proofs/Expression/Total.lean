import CodeConverter.Brace.State
import CodeConverter.Indent.State
import CodeConverter.Proofs.Expression.Respelling

/-!
# Expressions can always be respelled

Whatever is done to an expression before and between the respellings outside literals leaves a text
whose literals can be masked. So the expression functions of all conversions succeed on every text
without null characters and with not too many quotes and braces.
-/

namespace CodeConverter

open Pattern Literal List Expression.ToPython

variable {new run contents joiner : Text} {c : Char} {segments : List Segment} {t : Text}
    {fails : Fault → Prop} {p : Pattern} {g : Match → Text} {set : Char → Bool} {k : Nat}

namespace Literal

theorem tame_replaceBy (h : ∀ m : Match, m.Of p t → Tame (g m) m.whole) :
    Tame (p.replaceBy g t) t :=
  replaceBy_rel compatible_tame (fun c _ => .refl [c]) h

theorem tame_replaceWith (p : Pattern) (t : Text) (hnew : new.all isClean = true) :
    Tame (p.replaceWith new t) t :=
  tame_replaceBy fun m _ => .of_clean hnew m.whole

theorem tame_replace {old : Text} (t : Text) (hold : old ≠ []) (hnew : new.all isClean = true) :
    Tame (Text.replace old new t) t :=
  replace_rel compatible_tame hold (fun c _ => .refl [c]) (.of_clean hnew old)

theorem tame_dollarToBrace (t : Text) : Tame (dollarToBrace t) t := by
  refine tame_replaceBy fun m hof => ?_
  exact (Tame.of_isInfix (hof.group_isInfix 1)).wrap rfl rfl

theorem tame_backtickToMarked (t : Text) : Tame (backtickToMarked t) t := by
  refine tame_replaceBy fun m hof => ?_
  rw [hof.whole_eq, append_assoc]
  exact compatible_tame.append ⟨by decide, by decide⟩
    (compatible_tame.append (tame_dollarToBrace _) ⟨by decide, by decide⟩)

/-- A marked literal is an `f` and its contents between two quotes of one kind. -/
theorem markedLiteral_whole {subject : Text} {m : Match} (h : m.Of markedLiteral subject) :
    ∃ q, isPlainQuote q = true ∧ m.whole = 'f' :: q :: (m.group 2 ++ [q]) := by
  have hreads := h.reads
  simp only [markedLiteral, append_eq_seq, reads_seq_iff, reads_group_iff, reads_char_iff,
    reads_literal_iff, reads_wordEdge_iff, little, few, reads_chars_iff, reads_again_iff] at hreads
  obtain ⟨_, _, _, hwhole, ⟨_, _, d, rfl, ⟨_, s, _, rfl, ⟨_, _, _, rfl, ⟨rfl, -⟩, rfl, -⟩,
    _, ⟨q, rest, rfl, hq, hahead, rfl⟩, rfl⟩, _, ⟨-, rest', hahead', rfl⟩, rfl⟩,
    capture, _, hlookup, rfl, -, hlast⟩ := hreads
  have hcapture : capture.text = [q] := by
    obtain rfl := Option.some.inj hlookup
    simp [Capture.text, hahead, State.past]
  have hgroup : m.group 2 = d := by
    have hcaptures : m.last.captures.lookup 2 = some ⟨s.index + 1, rest, d.length⟩ := by
      rw [hlast]
      simp [State.past, State.remember]
    have hrest : rest = d ++ rest' := hahead'
    rw [Match.group, Match.group?, hcaptures]
    simp [Capture.text, hrest]
  exact ⟨q, hq, by rw [hwhole, hcapture, hgroup]; simp⟩

theorem tame_markedToBacktick (t : Text) : Tame (markedToBacktick t) t := by
  refine tame_replaceBy fun m hof => ?_
  obtain ⟨q, hq, hwhole⟩ := markedLiteral_whole hof
  have hholes : Tame (braceField.replaceBy (fun h => "$\x7b" ++ h.group 1 ++ "\x7d") (m.group 2))
      (m.group 2) :=
    tame_replaceBy fun h hof =>
      (Tame.of_isInfix (hof.group_isInfix 1)).wrap rfl rfl
  have hquote : Tame "`" [q] := by
    simp only [isPlainQuote, Bool.or_eq_true, decide_eq_true_eq] at hq
    rcases hq with rfl | rfl <;> exact ⟨by decide, by decide⟩
  rw [hwhole, append_assoc]
  exact compatible_tame.append (a := []) (b := ['f']) (.of_clean rfl _)
    (compatible_tame.append hquote (compatible_tame.append hholes hquote))

/-- The first text has a null character only if the second has one, and at most two more quotes for
every opening brace of the second. -/
structure Spread (out t : Text) : Prop where
  null : '\x00' ∉ t → '\x00' ∉ out
  quotes : out.countP isQuote ≤ t.countP isQuote + 2 * t.count '{'

theorem compatible_spread : Compatible Spread where
  nil := ⟨fun h => h, Nat.le_refl _⟩
  append := by
    intro a b c d hab hcd
    refine ⟨fun h => ?_, ?_⟩
    · rw [mem_append, not_or] at h ⊢
      exact ⟨hab.null h.1, hcd.null h.2⟩
    · have := hab.quotes
      have := hcd.quotes
      rw [countP_append, countP_append, count_append]
      omega

/-- The operand made of a run of characters, the latest first, if there are any. -/
def runOperand : Text → List Text
  | [] => []
  | run => ["\"" ++ run.reverse ++ "\""]

theorem operandsFrom_nil (run : Text) : operandsFrom run [] = runOperand run := by
  cases run <;> rfl

theorem operandsFrom_plain (run : Text) (c : Char) (segments : List Segment) :
    operandsFrom run (.plain c :: segments) = operandsFrom (c :: run) segments := by
  cases run <;> rfl

theorem operandsFrom_found (run : Text) (m : Match) (segments : List Segment) :
    operandsFrom run (.found m :: segments) = runOperand run ++ m.group 1 ::
    operandsFrom [] segments := by
  cases run <;> rfl

theorem countP_runOperand (hk : 2 * ("\"" : Text).countP set ≤ k) (run : Text) :
    (runOperand run).flatten.countP set ≤ run.countP set + k := by
  cases run with
  | nil => exact Nat.zero_le _
  | cons c run =>
    simp only [runOperand, flatten_cons, flatten_nil, append_nil, countP_append, countP_reverse]
    omega

/-- The operands of a concatenation have the characters of the contents and two more quotes for
every run of characters. -/
theorem countP_operandsFrom (hk : 2 * ("\"" : Text).countP set ≤ k) (run : Text)
    (h : ∀ x ∈ segments, x.Of braceField contents) :
    (operandsFrom run segments).flatten.countP set ≤
    run.countP set + (segments.flatMap Segment.text).countP set +
      k * (segments.flatMap Segment.text).count '{' + k := by
  induction segments generalizing run with
  | nil =>
    rw [operandsFrom_nil]
    exact Nat.le_trans (countP_runOperand hk run) (by omega)
  | cons x segments ih =>
    have hrest : ∀ x ∈ segments, x.Of braceField contents := fun x hx => h x (mem_cons_of_mem _ hx)
    have hx := h x mem_cons_self
    rw [flatMap_cons, countP_append, count_append, Nat.mul_add]
    cases x with
    | plain c =>
      have hnext := ih (c :: run) hrest
      rw [operandsFrom_plain]
      rw [countP_cons] at hnext
      simp only [Segment.text, countP_cons, countP_nil] at hnext ⊢
      omega
    | found m =>
      have hof : m.Of braceField contents := hx
      have hnext := ih [] hrest
      have hrun := countP_runOperand hk run
      have hgroup : (m.group 1).countP set ≤ m.whole.countP set :=
        (hof.group_isInfix 1).sublist.countP_le
      have hbrace : 1 ≤ m.whole.count '{' := by
        obtain ⟨c, hc, hset⟩ : ∃ c ∈ m.whole, decide (c = '{') = true := hof.reads.needs rfl
        obtain rfl : c = '{' := by simpa using hset
        exact count_pos_iff.mpr hc
      have hmore := Nat.mul_le_mul_left k hbrace
      rw [operandsFrom_found, flatten_append, flatten_cons, countP_append, countP_append]
      simp only [Segment.text, countP_nil] at hnext ⊢
      omega

theorem mem_concatenation (h : c ∈ concatenation joiner contents) : c ∈ contents ∨ c ∈ joiner ∨
    c = '"' := by
  simp only [concatenation] at h
  split at h
  · exact .inr (.inr (by simpa using h))
  · rcases Text.mem_join h with hmem | ⟨o, ho, hmem⟩
    · exact .inr (.inl hmem)
    · by_contra hnone
      rw [not_or, not_or] at hnone
      have hcount :=
        @countP_operandsFrom contents _ (fun d => d = c) 0 (by simp [Ne.symm hnone.2.2]) []
          segments_of
      rw [flatMap_segments, Nat.zero_mul] at hcount
      have hzero : contents.countP (fun d => d = c) = 0 := countP_eq_zero.mpr fun d hd heq => by
        rw [of_decide_eq_true heq] at hd
        exact hnone.1 hd
      rw [hzero] at hcount
      exact absurd (countP_pos_iff.mpr ⟨c, mem_flatten.mpr ⟨o, ho, hmem⟩, decide_eq_true rfl⟩)
        (Nat.not_lt.mpr hcount)

theorem countP_concatenation (hjoiner : joiner.countP isQuote = 0) (contents : Text) :
    (concatenation joiner contents).countP isQuote ≤ contents.countP isQuote + 2 * contents.count
    '{' + 2 := by
  have hoperands := @countP_operandsFrom contents _ isQuote 2 (by decide) [] segments_of
  rw [← Text.countP_join hjoiner, flatMap_segments] at hoperands
  simp only [concatenation]
  split
  · exact Nat.le_add_left _ _
  · simpa using hoperands

/-- Writing marked literals as concatenations. -/
theorem spread_markedToConcatenation (hjoiner : joiner.all isClean = true) (t : Text) :
    Spread (markedToConcatenation joiner t) t := by
  have hclean : ∀ c ∈ joiner, c ≠ '\x00' ∧ isQuote c = false := fun c hc => by
    simpa [isClean] using all_eq_true.mp hjoiner c hc
  refine replaceBy_rel compatible_spread (fun c _ => ⟨fun h => h, Nat.le_add_right _ _⟩)
    fun m hof => ?_
  obtain ⟨q, hq, hwhole⟩ := markedLiteral_whole hof
  refine ⟨fun hnull hmem => ?_, ?_⟩
  · rcases mem_concatenation hmem with hin | hjoin | hquote
    · exact hnull (by rw [hwhole]; simp [hin])
    · exact (hclean _ hjoin).1 rfl
    · cases hquote
  · have hcount := @countP_concatenation joiner
      (countP_eq_zero.mpr fun c hc => by simp [(hclean c hc).2]) (m.group 2)
    have hbraces : (m.group 2).count '{' ≤ m.whole.count '{' :=
      (hof.group_isInfix 2).sublist.count_le _
    have hquotes : m.whole.countP isQuote = (m.group 2).countP isQuote + 2 := by
      have hq' : isQuote q = true := by
        simp only [isPlainQuote, Bool.or_eq_true, decide_eq_true_eq] at hq
        rcases hq with rfl | rfl <;> rfl
      rw [hwhole, countP_cons_of_neg (by decide), countP_cons_of_pos hq', countP_append,
        countP_cons_of_pos hq', countP_nil]
    omega

/-- A text whose literals can be masked even after its marked literals are taken apart. -/
structure Moderate (t : Text) : Prop where
  null : '\x00' ∉ t
  quotes : t.countP isQuote + 2 * t.count '{' ≤ Text.capacity

theorem Moderate.maskable (h : Moderate t) : Maskable t :=
  ⟨h.null, Nat.le_trans (Nat.le_add_right _ _) h.quotes⟩

/-- Characters that are neither null nor a quote nor an opening brace. -/
def isLight (c : Char) : Bool :=
  c ≠ '\x00' && !isQuote c && c ≠ '{'

/-- A text with at most the quotes and opening braces of another and no new null character. -/
structure Lighter (u t : Text) : Prop extends Tame u t where
  braces : u.count '{' ≤ t.count '{'

namespace Lighter

variable {t u v : Text}

theorem of_isInfix (h : u <:+: t) : Lighter u t := ⟨.of_isInfix h, h.sublist.count_le _⟩

theorem trans (h : Lighter u t) (h' : Lighter v u) : Lighter v t :=
  ⟨h'.toTame.trans h.toTame, Nat.le_trans h'.braces h.braces⟩

theorem of_light (h : u.all isLight = true) (t : Text) : Lighter u t := by
  have hlight : ∀ c ∈ u, isClean c = true ∧ c ≠ '{' := by
    intro c hc
    simpa [isLight, isClean, and_assoc] using all_eq_true.mp h c hc
  refine ⟨.of_clean (all_eq_true.mpr fun c hc => (hlight c hc).1) t, ?_⟩
  rw [count_eq_zero.mpr fun hmem => (hlight _ hmem).2 rfl]
  exact Nat.zero_le _

end Lighter

theorem compatible_lighter : Compatible Lighter where
  nil := .of_isInfix infix_rfl
  append := by
    intro a b c d hab hcd
    refine ⟨compatible_tame.append hab.toTame hcd.toTame, ?_⟩
    rw [count_append, count_append]
    exact Nat.add_le_add hab.braces hcd.braces

theorem Lighter.enclose {a b t u : Text} (h : Lighter u t) (ha : a.all isLight = true)
    (hb : b.all isLight = true) : Lighter (a ++ u ++ b) t := by
  have hsum :=
    compatible_lighter.append (compatible_lighter.append (.of_light ha []) h) (.of_light hb [])
  simpa using hsum

theorem lighter_replaceBy
    (h : ∀ m : Match, m.Of p t → Lighter (g m) m.whole) : Lighter (p.replaceBy g t) t :=
  replaceBy_rel compatible_lighter (fun _ _ => .of_isInfix infix_rfl) h

theorem Moderate.lighter {t u : Text} (h : Moderate t) (hu : Lighter u t) : Moderate u := by
  refine ⟨hu.null h.null, ?_⟩
  have := h.quotes
  have := hu.quotes
  have := hu.braces
  omega

theorem Spread.maskable {out t : Text} (h : Spread out t) (ht : Moderate t) : Maskable out :=
  ⟨h.null ht.null, Nat.le_trans h.quotes ht.quotes⟩

end Literal

namespace Expression

variable {fails : Fault → Prop} {t : Text}

theorem meets_respell_bind {x : Except Fault Text} {f : Text → Text} (hf : Respelling f)
    (hx : Meets fails (fun out => Tame out t) x) (ht : Maskable t) :
    Meets fails (fun out => Tame out t) (x >>= respellOutside f) :=
  hx.bind fun _ hout => (meets_respellOutside hf (hout.maskable ht)).imp fun _ hout' =>
    hout'.trans hout

namespace ToPython

theorem meets_ofBraces (ht : Maskable t) : Meets fails (fun out => Tame out t) (ofBraces t) :=
  meets_respell_bind Spelling.respelling_toWords (meets_respellOutside respelling_dropNew ht) ht

theorem meets_ofJavaScript (ht : Maskable t) :
    Meets fails (fun out => Tame out t) (ofJavaScript t) := by
  have hmarked := tame_backtickToMarked t
  refine meets_respell_bind respelling_javascriptCalls ?_ ht
  exact (meets_ofBraces (hmarked.maskable ht)).imp fun _ hout => hout.trans hmarked

theorem tame_plainJava (t : Text) : Tame (plainJava t) t := by
  refine (tame_replaceWith _ _ rfl).trans ?_
  exact (tame_replaceWith _ _ rfl).trans (tame_replaceWith _ _ rfl)

theorem meets_ofJava (ht : Maskable t) : Meets fails (fun out => Tame out t) (ofJava t) := by
  have hplain := tame_plainJava t
  refine meets_respell_bind respelling_javaCalls ?_ ht
  exact (meets_ofBraces (hplain.maskable ht)).imp fun _ hout => hout.trans hplain

theorem tame_collection (items : Text) : Tame (collection items) items := by
  simp only [collection]
  split
  · exact (tame_replaceWith _ items rfl).wrap rfl rfl
  · exact (Tame.refl items).wrap rfl rfl

theorem tame_replace_collection (p : Pattern) (t : Text) :
    Tame (p.replaceBy (fun m => collection (m.group 1)) t) t :=
  tame_replaceBy fun _ hof =>
    (tame_collection _).trans (.of_isInfix (hof.group_isInfix 1))

theorem tame_longArraysFrom (n : Nat) (t : Text) : Tame (longArraysFrom n t) t := by
  induction n generalizing t with
  | zero => exact .refl t
  | succ n ih =>
    simp only [longArraysFrom]
    split
    · exact (ih _).trans (tame_replace_collection longArray t)
    · exact .refl t

theorem tame_methodCall (name : String) {method : Text} (hmethod : method.all isClean = true)
    (t : Text) : Tame (methodCall name method t) t := by
  refine tame_replaceBy fun m hof => ?_
  exact (Tame.of_isInfix (hof.group_isInfix 1)).wrap (a := []) rfl hmethod

theorem meets_ofPhp (ht : Maskable t) : Meets fails (fun out => Tame out t) (ofPhp t) := by
  have hfirst : ∀ u, Tame u t → Meets fails (fun out => Tame out t) (ofBraces u) := fun u hu =>
    (meets_ofBraces (hu.maskable ht)).imp fun _ hout => hout.trans hu
  refine hfirst _ ?_
  refine (tame_methodCall _ rfl _).trans ((tame_methodCall _ rfl _).trans ?_)
  refine (tame_replaceWith _ _ (by decide)).trans
    ((tame_replace _ (by decide) (by decide)).trans ?_)
  refine (tame_replaceWith _ _ rfl).trans ((tame_replace_collection shortArray _).trans ?_)
  exact tame_longArraysFrom (t.count '(') t

end ToPython

theorem ToJava.tame_doubleQuoted (t : Text) : Tame (ToJava.doubleQuoted t) t := by
  refine tame_replaceBy fun m hof => ?_
  rw [hof.whole_eq, append_assoc]
  exact compatible_tame.append ⟨by decide, by decide⟩
    (compatible_tame.append (.refl _) ⟨by decide, by decide⟩)

theorem ToJavaScript.meets_ofPython (ht : Maskable t) :
    Meets fails (fun out => Tame out t) (ToJavaScript.ofPython t) := by
  have hbacktick := tame_markedToBacktick t
  refine meets_respell_bind ToJavaScript.respelling_pythonCalls ?_ ht
  exact (meets_respellOutside (Spelling.respelling_toSymbols true rfl) (hbacktick.maskable ht)).imp
    fun _ hout => hout.trans hbacktick

theorem ToJava.meets_ofPython (ht : Moderate t) :
    Meets fails (fun _ => True) (ToJava.ofPython t) := by
  have hjoined : Maskable (ToJava.doubleQuoted (markedToConcatenation " + " t)) :=
    (ToJava.tame_doubleQuoted _).maskable ((spread_markedToConcatenation rfl t).maskable ht)
  refine (meets_respell_bind ToJava.respelling_pythonCalls ?_ hjoined).imp fun _ _ => trivial
  exact meets_respellOutside (Spelling.respelling_toSymbols false rfl) hjoined

theorem ToPhp.meets_ofPython (known : Text → Bool) (ht : Moderate t) :
    Meets fails (fun _ => True) (ToPhp.ofPython known t) := by
  have hjoined : Maskable (markedToConcatenation " . " t) :=
    (spread_markedToConcatenation rfl t).maskable ht
  refine (meets_respellOutside (Spelling.respelling_toSymbols false rfl) hjoined).bind
    fun out hout => ?_
  refine (meets_respellOutside (ToPhp.respelling_sigils known) (hout.maskable hjoined)).bind
    fun _ _ => ?_
  exact .ok trivial

end Expression

theorem Brace.Conversion.meets_expression (c : Brace.Conversion)
    (ht : Moderate t) : Meets fails (fun _ => True) (c.expression t) := by
  have hmask := ht.maskable
  cases c <;> simp only [Brace.Conversion.expression]
  case toIndentation => exact (meets_ofBraces hmask).imp fun _ _ => trivial
  case javaToPython => exact (meets_ofJava hmask).imp fun _ _ => trivial
  case javascriptToPython => exact (meets_ofJavaScript hmask).imp fun _ _ =>
    trivial
  case phpToPython => exact (meets_ofPhp hmask).imp fun _ _ => trivial
  all_goals exact .ok trivial

theorem Indent.Conversion.meets_expression (c : Indent.Conversion)
    (known : Text → Bool) (ht : Moderate t) :
    Meets fails (fun _ => True) (c.expression known t) := by
  have hmask := ht.maskable
  cases c <;> simp only [Indent.Conversion.expression]
  case plain =>
    exact (meets_respellOutside (Spelling.respelling_toSymbols false rfl) hmask).imp fun _ _ =>
      trivial
  case toJava => exact Expression.ToJava.meets_ofPython ht
  case toPhp => exact Expression.ToPhp.meets_ofPython known ht
  all_goals exact (Expression.ToJavaScript.meets_ofPython hmask).imp fun _ _ => trivial

end CodeConverter

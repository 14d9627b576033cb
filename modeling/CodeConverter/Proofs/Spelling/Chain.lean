import CodeConverter.Proofs.Spelling.Stage

/-!
# The replacements of the two spellings, one after another

Each replacement of `toWords` and of `toSymbols` changes one symbol of an expression. Together they
change all symbols whose spellings differ.
-/

namespace CodeConverter.Spelling

open List hiding set
open Pattern Literal Text Program

variable {p : Pattern} {new rest out : Text} {old young : Style} {before : Option Char}
    {ls : List Lexeme} {ks : List String} {y : Symbol} {k : Constant} {o : Operator}

theorem exists_of_fits (hrest : fits true rest = true) : ∃ c t, rest = c :: t ∧ isBlank c = false ∧
    c ∉ "=&|".toList := by
  cases rest with
  | nil => cases hrest
  | cons c t =>
    have hc : startsOperand c = true := hrest
    simp only [startsOperand, Bool.and_eq_true, Bool.not_eq_true'] at hc
    exact ⟨c, t, rfl, hc.1, fun hmem => by rw [among, contains_iff_mem.mpr hmem] at hc; cases hc.2⟩

/-- Replacing a symbol between its blanks. -/
theorem Spares.turns_target {targets : List Symbol} (hp : Spares p old young targets)
    (hbegin : p.beginsWith ' ' = false)
    (h : Ready p new y.leaves rest out) (hold : old y ≠ []) (hyoung : young y = new)
    (hfound : ∀ i, (p.outcomes ⟨y.pad.getLast?.or before, old y ++ (y.pad ++ rest), i, []⟩).head? =
      some ⟨(old y).getLast?.or (y.pad.getLast?.or before), y.pad ++ rest,
      i + (old y).length, []⟩) : Turns p new before (y.laid old ++ rest) (y.laid young ++ out) := by
  have hpad : ∀ c ∈ y.pad, p.beginsWith c = false := fun c hc => by rwa [Symbol.eq_of_mem_pad hc]
  have hafter := h.turns ((y.laid old).getLast?.or before) fun hleaves =>
    hp.mem_openings hleaves before
  simp only [Symbol.laid, getLast?_append, Option.or_assoc] at hafter
  simp only [Symbol.laid, hyoung, append_assoc]
  exact .of_beginsWith hp.needs hpad (.found (.of_beginsWith hp.needs hpad hafter) hold hfound)

/-- A replacement of one symbol. -/
theorem Stage.single (hp : Spares p old young [y]) (hbegin : p.beginsWith ' ' = false := by rfl)
    (hold : old y ≠ [] := by decide) (hyoung : young y = new := by rfl)
    (hy : y ≠ .closing := by decide)
    (hfound : ∀ before rest, y.pad.getLast?.or before ∈ openings → fits y.leaves rest = true →
      ∀ i, (p.outcomes ⟨y.pad.getLast?.or before, old y ++ (y.pad ++ rest), i, []⟩).head? =
        some ⟨(old y).getLast?.or (y.pad.getLast?.or before), y.pad ++ rest, i + (old y).length,
        []⟩ := by intros; rfl) :
    Stage p new old young := by
  refine hp.stage (fun _ before => Turns.outcomes_of_beginsWith hp.needs hbegin before _)
    fun z hz rest out h before hbefore => ?_
  obtain rfl := mem_singleton.mp hz
  refine hp.turns_target hbegin h hold hyoung (hfound before rest ?_ h.fits)
  cases z with
  | operator o => exact mem_cons_of_mem _ mem_cons_self
  | closing => exact absurd rfl hy
  | _ => exact hbefore rfl

theorem outcomes_keyword {w : Text} {i : Nat} (hbefore : before.any isWord = false)
    (hrest : rest.head?.any isWord = false)
    (hw : IsName w)
    (hks : (keyword ks).outcomes ⟨before, w ++ rest, i, []⟩ =
    [⟨w.getLast?.or before, rest, i + w.length, []⟩]) :
    (wordEdge ++ keyword ks ++ wordEdge).outcomes ⟨before, w ++ rest, i, []⟩ =
      [⟨w.getLast?.or before, rest, i + w.length, []⟩] := by
  obtain ⟨front, last, hlast⟩ := (eq_nil_or_concat' w).resolve_left hw.1
  obtain ⟨c, t, hhead⟩ := exists_cons_of_ne_nil hw.1
  have hfirst : State.isWordEdge ⟨before, w ++ rest, i, []⟩ = true := by
    simp [State.isWordEdge, hbefore, hhead, hw.2 c (by simp [hhead])]
  have hend : State.isWordEdge ⟨w.getLast?.or before, rest, i + w.length, []⟩ = true := by
    simp [State.isWordEdge, hrest, hlast, hw.2 last (by simp [hlast])]
  simp only [append_eq_seq, outcomes, hfirst, if_true, flatMap_cons, flatMap_nil, hks,
    append_nil, hend]

theorem Stage.constant (hp : Spares (wordEdge ++ keyword ks ++ wordEdge) old young [.constant k])
    (hbegin : (wordEdge ++ keyword ks ++ wordEdge).beginsWith ' ' = false := by rfl)
    (hold : IsName (old (.constant k)) := by decide) (hyoung : young (.constant k) = new := by rfl)
    (hks : ∀ before rest i, (keyword ks).outcomes ⟨before, old (.constant k) ++ rest, i, []⟩ =
      [⟨(old (.constant k)).getLast?.or before, rest, i + (old (.constant k)).length, []⟩] := by
    intros; rfl) : Stage (wordEdge ++ keyword ks ++ wordEdge) new old young := by
  refine .single hp hbegin hold.1 hyoung (by simp) fun before rest hbefore hrest i => ?_
  have hopen : ∀ b ∈ openings, b.any isWord = false := by decide
  have hclose : rest.head?.any isWord = false := by
    cases rest with
    | nil => rfl
    | cons c t =>
      have hc : c = ' ' ∨ c = ')' := by simpa [Symbol.leaves, fits, among] using hrest
      rcases hc with rfl | rfl <;> rfl
  exact congrArg head? (outcomes_keyword (hopen before hbefore) hclose hold (hks before rest i))

/-- An operator of two equal signs is replaced with the blanks around it. -/
theorem Stage.doubled {c : Char} (hc : c = '&' ∨ c = '|')
    (hp : Spares (blanks ++ .literal [c, c] ++ blanks) old young [.operator o])
    (hold : old (.operator o) = [c, c])
    (hyoung : ' ' :: (young (.operator o) ++ " ") = new := by rfl) :
    Stage (blanks ++ .literal [c, c] ++ blanks) new old young := by
  obtain ⟨hblank, hspace, hmem⟩ : isBlank c = false ∧ c ≠ ' ' ∧ c ∈ "=&|".toList := by
    rcases hc with rfl | rfl <;> decide
  refine hp.stage (fun hrest before i => ?_) fun y hy rest out h before _ => ?_
  · obtain ⟨d, t, rfl, hd, hnot⟩ := exists_of_fits hrest
    have hne : c ≠ d := fun heq => hnot (heq ▸ hmem)
    have hfirst : isBlank ' ' = true := rfl
    simp [append_eq_seq, blanks, many, outcomes, State.stretch, State.eat, State.advance, hfirst,
      hd, hspace, hne]
  · obtain rfl := mem_singleton.mp hy
    obtain ⟨d, t, rfl, hd, -⟩ := exists_of_fits h.fits
    have hfirst : isBlank ' ' = true := rfl
    have hturned :
        Turns (blanks ++ .literal [c, c] ++ blanks) new before ([' ', c, c, ' '] ++ d :: t)
        (new ++ out) :=
      .found (h.turns _ fun _ => mem_cons_of_mem _ mem_cons_self) (cons_ne_nil _ _) fun i => by
        simp [append_eq_seq, blanks, many, outcomes, State.stretch, State.eat, State.advance,
          hfirst, hd, hblank]
    simpa [Symbol.laid, Symbol.pad, hold, ← hyoung] using hturned

/-- One style, but another for the first symbols of an order. -/
def blend (old young : Style) (order : List Symbol) (n : Nat) : Style :=
  fun y => if y ∈ order.take n then young y else old y

theorem blend_eq {order : List Symbol} {n : Nat}
    (h : ∀ y ∈ Symbol.all, blend old young order n y = young y) : blend old young order n = young :=
  funext fun y => h y y.mem_all

/-- The style after the first replacements with words. -/
def towardsWords : Nat → Style :=
  blend symbols words [.operator .equal, .operator .unequal, .operator .both, .operator .either,
    .negation, .constant .none, .constant .yes, .constant .no]

theorem receiver_masked {s : Style} (hp : Spares p s s [])
    (hbegin : p.beginsWith ' ' = false := by rfl)
    (hls : Alternates true ls) (n : Nat) : p.replaceWith new (masked s n ls) = masked s n ls :=
  (hp.stage (fun _ before => Turns.outcomes_of_beginsWith hp.needs hbegin before _)
    fun _ hy => absurd hy not_mem_nil).replaceWith_eq hls n

/-- All symbols become words. -/
theorem toWords_masked (hls : Alternates true ls) (n : Nat) :
    toWords (masked symbols n ls) = masked words n ls := by
  have hequal : Stage (.literal "===".toList) "==" (towardsWords 0) (towardsWords 1) :=
    .single (y := .operator .equal) {}
  have hunequal : Stage (.literal "!==".toList) "!=" (towardsWords 1) (towardsWords 2) := by
    have hp : Spares (.literal "!==".toList) (towardsWords 1) (towardsWords 2) [.operator .unequal,
        .negation] := {}
    refine hp.stage (fun _ before => Turns.outcomes_of_beginsWith rfl rfl before _)
      fun y hy rest out h before _ => ?_
    rcases mem_pair.mp hy with rfl | rfl
    · exact hp.turns_target rfl h (by decide) rfl fun _ => rfl
    · obtain ⟨c, t, rfl, -, hnot⟩ := exists_of_fits h.fits
      have hc : '=' ≠ c := by
        rintro rfl
        exact hnot (by decide)
      show Turns _ _ before ('!' :: c :: t) ('!' :: out)
      exact .step (h.turns _ fun _ => by decide) fun i => by
        simp [outcomes, State.eat, State.advance, hc]
  have hboth : Stage (blanks ++ "&&" ++ blanks) " and " (towardsWords 2) (towardsWords 3) :=
    .doubled (o := .both) (.inl rfl) {} rfl
  have heither : Stage (blanks ++ "||" ++ blanks) " or " (towardsWords 3) (towardsWords 4) :=
    .doubled (o := .either) (.inr rfl) {} rfl
  have hnot : Stage ("!" ++ notAhead "=" ++ blanks) "not " (towardsWords 4) (towardsWords 5) := by
    refine .single (y := .negation) {} rfl (by decide) rfl (by decide)
      fun before rest _ hrest i => ?_
    obtain ⟨c, t, rfl, hc, hnot⟩ := exists_of_fits hrest
    have hne : '=' ≠ c := by
      rintro rfl
      exact hnot (by decide)
    show (Pattern.outcomes _ ⟨before, '!' :: c :: t, i, []⟩).head? = some ⟨some '!', c :: t,
        i + 1, []⟩
    simp [append_eq_seq, blanks, many, outcomes, State.stretch, State.eat, State.advance, hc, hne]
  have hnone : Stage (wordEdge ++ keyword ["null", "undefined"] ++ wordEdge) "None" (towardsWords 5)
      (towardsWords 6) :=
    .constant (k := .none) {}
  have hyes :
      Stage (wordEdge ++ keyword ["true"] ++ wordEdge) "True" (towardsWords 6) (towardsWords 7) :=
    .constant (k := .yes) {}
  have hno :
      Stage (wordEdge ++ keyword ["false"] ++ wordEdge) "False" (towardsWords 7) (towardsWords 8) :=
    .constant (k := .no) {}
  have hend : towardsWords 8 = words := blend_eq (by decide)
  have hstart : masked symbols n ls = masked (towardsWords 0) n ls := rfl
  rw [toWords, replace_eq_replaceWith (by decide), replace_eq_replaceWith (by decide), hstart,
    hequal.replaceWith_eq hls,
    hunequal.replaceWith_eq hls, hboth.replaceWith_eq hls, heither.replaceWith_eq hls,
    hnot.replaceWith_eq hls]
  unfold respellWord
  rw [hnone.replaceWith_eq hls, hyes.replaceWith_eq hls, hno.replaceWith_eq hls, hend]
  exact receiver_masked {} rfl hls n

/-- The style after the first replacements with symbols. -/
def towardsSymbols : Nat → Style :=
  blend words symbols [.operator .equal, .operator .unequal, .negation, .operator .both,
    .operator .either, .constant .none, .constant .yes, .constant .no]

/-- All words become symbols. -/
theorem toSymbols_masked (receiver : Text) (hls : Alternates true ls) (n : Nat) :
    toSymbols true receiver (masked words n ls) = masked symbols n ls := by
  have hequal : Stage (notBehind (among "=!<>") ++ "==" ++ notAhead "=") "===" (towardsSymbols 0)
      (towardsSymbols 1) :=
    .single (y := .operator .equal) {}
  have hunequal : Stage ("!=" ++ notAhead "=") "!==" (towardsSymbols 1) (towardsSymbols 2) :=
    .single (y := .operator .unequal) {}
  have hnot : Stage (wordEdge ++ "not" ++ gap) "!" (towardsSymbols 2) (towardsSymbols 3) := by
    refine .single (y := .negation) {} rfl (by decide) rfl (by decide)
      fun before rest hbefore hrest i => ?_
    obtain ⟨c, t, rfl, hc, -⟩ := exists_of_fits hrest
    have hopen : ∀ b ∈ openings, b.any isWord = false := by decide
    have hword : isWord 'n' = true := rfl
    have hspace : isBlank ' ' = true := rfl
    show (Pattern.outcomes _ ⟨before, 'n' :: 'o' :: 't' :: ' ' :: c :: t, i, []⟩).head? =
        some ⟨some ' ', c :: t, i + 4, []⟩
    simp [append_eq_seq, gap, many1, outcomes, State.isWordEdge, State.eat, State.advance,
      State.stretch, hopen before hbefore, hword, hspace, hc]
  have hboth :
      Stage (wordEdge ++ keyword ["and"] ++ wordEdge) "&&" (towardsSymbols 3) (towardsSymbols 4) :=
    .single (y := .operator .both) {}
  have heither :
      Stage (wordEdge ++ keyword ["or"] ++ wordEdge) "||" (towardsSymbols 4) (towardsSymbols 5) :=
    .single (y := .operator .either) {}
  have hnone : Stage (wordEdge ++ keyword ["None"] ++ wordEdge) "null" (towardsSymbols 5)
      (towardsSymbols 6) :=
    .constant (k := .none) {}
  have hyes : Stage (wordEdge ++ keyword ["True"] ++ wordEdge) "true" (towardsSymbols 6)
      (towardsSymbols 7) :=
    .constant (k := .yes) {}
  have hno : Stage (wordEdge ++ keyword ["False"] ++ wordEdge) "false" (towardsSymbols 7)
      (towardsSymbols 8) :=
    .constant (k := .no) {}
  have hend : towardsSymbols 8 = symbols := blend_eq (by decide)
  have hstart : masked words n ls = masked (towardsSymbols 0) n ls := rfl
  rw [toSymbols, receiver_masked {} rfl hls n, receiver_masked {} rfl hls n, if_pos rfl,
    strictEquality, hstart, hequal.replaceWith_eq hls,
    hunequal.replaceWith_eq hls, hnot.replaceWith_eq hls]
  unfold respellWord
  rw [hboth.replaceWith_eq hls, heither.replaceWith_eq hls, hnone.replaceWith_eq hls,
    hyes.replaceWith_eq hls, hno.replaceWith_eq hls, hend]
  exact receiver_masked {} rfl hls n

end CodeConverter.Spelling

import CodeConverter.Proofs.Brace.Tally

/-!
# Balanced sources give balanced programs

After every line of a source with at most one brace on a line, the braces left open by the output
are those of the open scopes that are written, also where a header was left without its brace. If
every header gets its brace, the scopes are the open braces of the source, and a balanced source
gives a balanced program.
-/

namespace CodeConverter.Brace

open Text Pattern List
open Indent (Plain)

variable {c : Conversion} {s t : State} {n m : Nat} {line : Text}

theorem remembersBrace_eq_true (hc : c ∈ writesBraces) (line : Text) :
    remembersBrace c line = true := by
  have hcase := writesBraces_cases hc
  have hstyle : c.style.closesBlocks = true := by
    rcases hcase with rfl | rfl | rfl <;> rfl
  unfold remembersBrace
  refine all_eq_true.mpr fun piece _ => ?_
  generalize prepare c piece = u
  have hother : ∀ kind ∈ [LineKind.lambda, .echoLine], (classify c.grammar u).kind ≠ kind := by
    intro kind hmem hkind
    have hnone : c.grammar.filter (fun form => form.kind = kind) = [] := by
      simp only [mem_cons, not_mem_nil, or_false] at hmem
      rcases hcase with rfl | rfl | rfl <;> rcases hmem with rfl | rfl <;> rfl
    obtain ⟨form, hform, -⟩ := found_of_kind hnone hkind (by rintro rfl; simp at hmem)
    cases hform
  unfold forgets
  cases hkind : (classify c.grammar u).kind
  case lambda | echoLine => exact absurd hkind (hother _ (by simp))
  all_goals simp [hstyle]

/-- A line without code is blank or a comment, and neither has braces. -/
theorem meets_visitLine_passed (hphp : c ≠ .phpToPython) (hs : s.Tallies c) (hinv : Inv c s)
    (hcomment : s.inComment = false) (hshape : hasOneBrace c (codeOf c line) = true)
    (hpassed : isPassed c line = true) :
    Yields (fun t => t.Tallies c ∧ Inv c t) (visitLine c s line) := by
  obtain ⟨hplain, hopens⟩ := plain_of_isPassed hshape hpassed
  have hcode : codeOf c line = strip line := if_neg hphp
  unfold isPassed at hpassed
  rw [hcode] at hplain hopens hpassed
  unfold visitLine
  rw [if_neg hphp]
  generalize strip line = code at *
  unfold visitStripped
  refine .ite (fun _ => .ok ⟨⟨?_, hs.names⟩, hinv.classes, hinv.skipped⟩) fun hsome => ?_
  · have hblank : (s.output.push []).toList.flatten = s.output.toList.flatten := by simp
    show openAfter 0 (s.output.push []).toList.flatten = some (s.shown c)
    rw [hblank]
    exact hs.braces
  · rw [if_neg (show ¬ (s.inComment || includes code "/*") = true by
    rw [hcomment, hopens]; exact Bool.false_ne_true)]
    obtain ⟨comment, hcomment⟩ : ∃ comment, lineComment? c code = some comment := by
      rw [Bool.or_eq_true] at hpassed
      exact Option.isSome_iff_exists.mp (hpassed.resolve_left hsome)
    rw [hcomment]
    -- A comment has the characters of its line and a mark.
    have hbalanced : Balanced comment := by
      obtain ⟨mark, hmark, htext⟩ := exists_of_findSome?_eq_some hcomment
      obtain ⟨text, hdrop, rfl⟩ := Option.map_eq_some_iff.mp htext
      have htext : Plain (strip text) := by
        refine .part hplain (Subset.trans (strip_isInfix text).subset ?_)
        rw [eq_append_of_dropPrefix? hdrop]
        exact subset_append_right _ _
      have hstyle : Plain (c.style.lineComment ++ " ") := by
        refine plain_of_filter ?_
        cases c <;> rfl
      exact .of_plain
        (Indent.Plain.part (forall_mem_append.mpr ⟨hstyle, htext⟩) (stripEnd_isPrefix _).subset)
    have hwith : TalliesWith c ({ s with hasContent := true }, .line comment) :=
      .stay hs hbalanced rfl rfl rfl
    exact .ok ⟨hwith.emit _, hinv.classes, hinv.skipped⟩

/-- A line with at most one brace keeps the tally. -/
theorem meets_visitLine_tallies (hc : c ∈ writesBraces) (hline : '\n' ∉ line)
    (hshape : hasOneBrace c (codeOf c line) = true) (hcomment : s.inComment = false)
    (hopened : s.Opened n) (hm : openAfter n line = some m) (hs : s.Tallies c) (hinv : Inv c s) :
    Yields (fun t => t.Tallies c ∧ Inv c t) (visitLine c s line) := by
  have hphp : c ≠ .phpToPython := by
    rintro rfl
    simp [writesBraces] at hc
  by_cases hpassed : isPassed c line = true
  · exact meets_visitLine_passed hphp hs hinv hcomment hshape hpassed
  · have hcode := Bool.eq_false_iff.mpr hpassed
    obtain ⟨piece, hsplit, hadds, hopens, -⟩ :=
      exists_adds hline hshape (remembersBrace_eq_true hc line) hcode hm
    unfold isPassed at hcode
    rw [Bool.or_eq_false_iff, isEmpty_eq_false_iff, Option.isSome_eq_false_iff,
      Option.isNone_iff_eq_none] at hcode
    rw [visitLine_of_code c s hcomment hcode.1 hopens hcode.2, hsplit]
    simp only [visitPieces]
    have hs' : State.Tallies c { s with hasContent := true } := ⟨hs.braces, hs.names⟩
    have hinv' : Inv c { s with hasContent := true } := ⟨hinv.classes, hinv.skipped⟩
    refine .either (.ok ⟨hs', hinv'⟩) ?_
    refine .bind
      ((meets_visitPiece_tallies hc hinv' hs' hadds hopened).and (meets_visitPiece_inv hc hinv' _))
      fun t ht => .ok ht

/-- After some lines the output leaves open the braces of the scopes that are written. -/
theorem meets_run_tallies {pre : List Text} {k : Nat} (hc : c ∈ writesBraces)
    (hline : ∀ line ∈ pre, '\n' ∉ line)
    (hshape : ∀ line ∈ pre, hasOneBrace c (codeOf c line) = true)
    (hcomment : s.inComment = false) (hopened : s.Opened n) (hle : m ≤ n)
    (hk : openAfter m pre.flatten = some k)
    (hs : s.Tallies c) (hinv : Inv c s) :
    Yields (State.Tallies c) (pre.foldlM (visitLine c) s) := by
  have hlanguages := (languages_of_writesBraces hc).1
  induction pre generalizing s n m with
  | nil => exact .ok hs
  | cons line pre ih =>
    rw [forall_mem_cons] at hline hshape
    rw [flatten_cons, openAfter_append, Option.bind_eq_some_iff] at hk
    obtain ⟨m', hm', hk⟩ := hk
    obtain ⟨more, rfl⟩ : ∃ more, n = m + more := ⟨n - m, by omega⟩
    have hn := openAfter_add hm' more
    have hremembers := remembersBrace_eq_true hc line
    have hcounted :=
      meets_visitLine_counted hlanguages hline.1 hshape.1 hremembers hcomment hopened hn
    have hclosed : Yields (fun t => t.inComment = false) (visitLine c s line) :=
      meets_visitLine_closed hline.1 hshape.1 hremembers hcomment hm'
    have htallies := meets_visitLine_tallies hc hline.1 hshape.1 hcomment hopened hn hs hinv
    rw [foldlM_cons]
    refine ((hcounted.and hclosed).and htallies).bind fun t ht => ?_
    obtain ⟨⟨⟨k', hk', hle', -⟩, hnext⟩, hs', hinv'⟩ := ht
    exact ih hline.2 hshape.2 hnext hk' (by omega) hk hs' hinv'

theorem settled_of_bracesFollow {lines : List Text} (h : bracesFollow c s lines = true)
    (hrun : lines.foldlM (visitLine c) s = .ok t) : t.awaitingBrace = false := by
  induction lines generalizing s with
  | nil =>
    cases hrun
    simpa [bracesFollow] using h
  | cons line lines ih =>
    rw [foldlM_cons] at hrun
    simp only [bracesFollow, Bool.and_eq_true] at h
    cases hvisit : visitLine c s line with
    | error fault =>
      rw [hvisit] at hrun
      cases hrun
    | ok next =>
      rw [hvisit] at hrun h
      exact ih h.2 hrun

/-- The end of the source adds a balanced text around and behind the output. -/
theorem balanced_finish (hs : s.Tallies c) (hnone : s.scopes = []) :
    Balanced (unlines (finish c s).output.toList) := by
  have hopen : ∀ {t : State}, t.Tallies c → t.scopes = [] →
      openAfter 0 t.output.toList.flatten = some 0 := by
    intro t ht hscopes
    rw [ht.braces, State.shown, hscopes]
    rfl
  unfold Text.Balanced
  rw [openAfter_unlines]
  unfold finish
  split
  · -- The stub is balanced, and the class around the program has a brace before and one behind it.
    have hstub : TalliesWith c (s, mainStub) := .stay hs (by decide) rfl rfl rfl
    have hlast : ∃ t : State, t.Tallies c ∧ t.scopes = [] ∧
        (if s.hasMain then s else s.emit c c.style.baseDepth mainStub) = t := by
      split
      · exact ⟨s, hs, hnone, rfl⟩
      · exact ⟨_, hstub.emit _, hnone, rfl⟩
    obtain ⟨t, ht, hscopes, heq⟩ := hlast
    simp only [heq, Array.toList_append, flatten_append]
    have hinner : openAfter 1 t.output.toList.flatten = some 1 := openAfter_add (hopen ht hscopes) 1
    have hfirst : openAfter 0 ("public class Main \x7b" ++ t.output.toList.flatten) = some 1 := by
      rw [openAfter_append]
      exact hinner
    show openAfter 0 (("public class Main \x7b".toList ++ []) ++ t.output.toList.flatten ++
        ("\x7d".toList ++ [])) = some 0
    rw [append_nil, openAfter_append_of hfirst]
    rfl
  · exact hopen hs hnone

/-- After every line of a source with at most one brace on a line, the output leaves open as many
braces as there are open scopes that are written. If every header gets its brace, there are as many
open scopes as open braces in the lines, unless a header waits for its brace, and a balanced source
gives a balanced program. -/
theorem written_braces_eq_shown_scopes (hc : c ∈ writesBraces) {source : Text}
    (hshape : ∀ line ∈ lines source, hasOneBrace c (codeOf c line) = true)
    (hopen : openAfter 0 source ≠ none) :
    (∀ pre rest s, lines source = pre ++ rest → (machine c).run pre = .ok s →
      openAfter 0 (unlines s.output.toList) = some (s.shown c) ∧
      (bracesFollow c State.initial (lines source) = true → s.awaitingBrace = false →
        openAfter 0 (unlines pre) = some s.scopes.length)) ∧
      (bracesFollow c State.initial (lines source) = true → Balanced source →
        ∀ out, (machine c).convert source = .ok out → Balanced out) := by
  have hlanguages := (languages_of_writesBraces hc).1
  have hinitial : State.initial.Opened 0 ∧ State.initial.Tallies c :=
    ⟨rfl, rfl, fun name hname => by cases hname⟩
  have hafter : ∀ pre rest s, lines source = pre ++ rest → (machine c).run pre = .ok s →
      s.Tallies c ∧ (bracesFollow c State.initial (lines source) = true → s.awaitingBrace = false →
        openAfter 0 (unlines pre) = some s.scopes.length) := by
    intro pre rest s hlines hrun
    have hrun : pre.foldlM (visitLine c) State.initial = .ok s := hrun
    have hline : ∀ line ∈ pre, line ∈ lines source := fun line hmem => by
      rw [hlines]
      exact mem_append_left _ hmem
    have hbreak : ∀ line ∈ pre, '\n' ∉ line :=
      fun line hmem => not_mem_of_mem_splitOn (hline line hmem)
    have hone : ∀ line ∈ pre, hasOneBrace c (codeOf c line) = true :=
      fun line hmem => hshape line (hline line hmem)
    obtain ⟨d, hd⟩ := exists_openAfter hlines hopen
    have htallies :=
      meets_run_tallies hc hbreak hone rfl hinitial.1 (Nat.le_refl 0) hd hinitial.2 (.initial c)
    have hcounted := meets_run_counted rest hlanguages hbreak hone
      (fun line _ => remembersBrace_eq_true hc line) rfl hinitial.1 (Nat.le_refl 0) hd
    rw [hrun] at htallies hcounted
    refine ⟨htallies.of_ok, fun hfollow hsettled => ?_⟩
    obtain ⟨k, hk, -, hexact⟩ := hcounted.of_ok
    obtain rfl : k = d := hexact rfl (by rwa [← hlines])
    have hlength : s.scopes.length = k := by simpa [State.Opened, hsettled] using hk
    rw [openAfter_unlines, hd, hlength]
  refine ⟨fun pre rest s hlines hrun => ?_, fun hfollow hbalanced out hconvert => ?_⟩
  · obtain ⟨htallies, hscopes⟩ := hafter pre rest s hlines hrun
    rw [openAfter_unlines]
    exact ⟨htallies.braces, hscopes⟩
  · -- At the end no header waits, so no scope is open.
    obtain ⟨s, hrun, rfl⟩ : ∃ s, (machine c).run (lines source) = .ok s ∧
        out = unlines (finish c s).output.toList := by
      unfold LineMachine.convert at hconvert
      cases hrun : (machine c).run (lines source) with
      | error fault =>
        rw [hrun] at hconvert
        cases hconvert
      | ok s =>
        rw [hrun] at hconvert
        cases hconvert
        exact ⟨s, rfl, rfl⟩
    obtain ⟨htallies, hscopes⟩ := hafter (lines source) [] s (by simp) hrun
    have hdepth := hscopes hfollow (settled_of_bracesFollow hfollow hrun)
    have hjoined : unlines (lines source) = source := join_splitOn '\n' source
    rw [hjoined, show openAfter 0 source = some 0 from hbalanced] at hdepth
    exact balanced_finish htallies (length_eq_zero_iff.mp (Option.some.inj hdepth).symm)

/-- A class in a namespace, with a header whose brace comes later, an `else` that goes on after a
block, and an interface that is left out. -/
def layeredSource : Text :=
  unlines ["namespace N \x7b", "class C", "\x7b", "int f() \x7b", "if (a) \x7b", "\x7d",
    "else \x7b", "g();", "\x7d", "\x7d", "\x7d", "interface I \x7b", "void h();", "\x7d", "\x7d"]

/-- The layered source gives a balanced program. -/
theorem written_braces_eq_shown_scopes_layered :
    (∀ line ∈ lines layeredSource,
    hasOneBrace .csharpToJavaScript (codeOf .csharpToJavaScript line) = true) ∧
      bracesFollow .csharpToJavaScript State.initial (lines layeredSource) = true ∧
      Balanced layeredSource ∧
      ∀ out, (machine .csharpToJavaScript).convert layeredSource = .ok out → Balanced out := by
  have hshape : ∀ line ∈ lines layeredSource,
      hasOneBrace .csharpToJavaScript (codeOf .csharpToJavaScript line) = true := by
    decide +kernel
  have hfollow : bracesFollow .csharpToJavaScript State.initial (lines layeredSource) = true := by
    decide +kernel
  have hbalanced : Balanced layeredSource := by decide
  refine ⟨hshape, hfollow, hbalanced, ?_⟩
  exact (written_braces_eq_shown_scopes (by decide) hshape (by decide)).2 hfollow hbalanced

end CodeConverter.Brace

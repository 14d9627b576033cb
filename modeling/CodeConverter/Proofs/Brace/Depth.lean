import CodeConverter.Proofs.Brace.Move.Outline

/-!
# Open scopes and open braces

In a source with at most one brace on a line every open scope has its brace: one that was read, or
one that is still to come after the header that announced it. A piece that opens a brace adds a
scope to the ones whose brace was read, one that closes a brace takes one away, and any other leaves
them alone, unless a header is given up because something other than its brace follows it.
-/

namespace CodeConverter.Brace

open Text Pattern List State

variable {c : Conversion} {s t : State} {u : Text} {n : Nat}

/-- The number of scopes whose brace was read: all but the one that a header has announced. -/
def State.Opened (s : State) (n : Nat) : Prop :=
  s.scopes.length = n + if s.awaitingBrace then 1 else 0

/-- After a piece the braces that were read are as many as expected. If a header is given up, its
scope counts as one with a brace. -/
def Counted (s : State) (u : Text) (expected : Nat) (t : State) : Prop :=
  ∃ n, t.Opened n ∧ expected ≤ n ∧ (s.awaitingBrace = false ∨ u = ['{'] → n = expected)

theorem State.Opened.of_eq (h : s.Opened n) (hscopes : t.scopes = s.scopes)
    (hawaiting : t.awaitingBrace = s.awaitingBrace) : t.Opened n := by
  unfold Opened
  rw [hscopes, hawaiting]
  exact h

theorem State.Opened.settle (h : s.Opened n) :
    { s with awaitingBrace := false }.Opened (n + if s.awaitingBrace then 1 else 0) := h

theorem Move.IsPlain.opened {m : Move} (hm : m.IsPlain) (hleads : m.Leads c s u t) (hs : s.Opened n)
    (hsettled : s.awaitingBrace = false) (hend : endsWith (stripEnd u) "\x7b" = false) :
    t.Opened n := by
  have hlength : s.scopes.length = n := by simpa [Opened, hsettled] using hs
  cases m with
  | stay => exact hs.of_eq hleads.scopes hleads.awaitingBrace
  | opens scope =>
    have hawaiting : t.awaitingBrace = true := hleads.awaitingBrace.trans (congrArg not hend)
    simp [Opened, hleads.scopes, hawaiting, openBlock, hlength]
  | enters scope name =>
    have hawaiting : t.awaitingBrace = true := hleads.awaitingBrace.trans (congrArg not hend)
    simp [Opened, hleads.scopes, hawaiting, openBlock, enterClass, hlength]
  | literal | brace | closes => cases hm

theorem Move.IsOpening.opened {m : Move} (hm : m.IsOpening) (hleads : m.Leads c s u t)
    (hs : s.Opened n)
    (hsettled : s.awaitingBrace = false) (hend : endsWith (stripEnd u) "\x7b" = true) :
    t.Opened (n + 1) := by
  have hlength : s.scopes.length = n := by simpa [Opened, hsettled] using hs
  cases m with
  | literal =>
    have hawaiting : t.awaitingBrace = false := by rw [hleads.awaitingBrace]; exact hsettled
    simp [Opened, hleads.scopes, hawaiting, push, hlength]
  | opens scope =>
    have hawaiting : t.awaitingBrace = false := hleads.awaitingBrace.trans (congrArg not hend)
    simp [Opened, hleads.scopes, hawaiting, openBlock, hlength]
  | enters scope name =>
    have hawaiting : t.awaitingBrace = false := hleads.awaitingBrace.trans (congrArg not hend)
    simp [Opened, hleads.scopes, hawaiting, openBlock, enterClass, hlength]
  | stay | brace | closes => cases hm

theorem opened_of_closes (hleads : Move.closes.Leads c s u t) (hs : s.Opened (n + 1))
    (hsettled : s.awaitingBrace = false) : t.Opened n := by
  have hlength : s.scopes.length = n + 1 := by simpa [Opened, hsettled] using hs
  obtain ⟨scope, after, hclose, hsame⟩ := hleads
  rcases closeBlock_cases hclose with ⟨hnil, -⟩ | ⟨first, rest, hscopes, -, rfl⟩
  · rw [hnil] at hlength
    cases hlength
  · rw [hscopes, length_cons] at hlength
    have hawaiting : t.awaitingBrace = false := hsame.awaitingBrace.trans hsettled
    have hlast : rest.length = n := by omega
    simp [Opened, hsame.scopes, hawaiting, hlast]

theorem opened_of_brace (hleads : Move.brace.Leads c s u t) (hs : s.Opened n) :
    t.Opened (n + 1) := by
  simp only [Move.Leads] at hleads
  by_cases hawaiting : s.awaitingBrace = true
  · rw [if_pos hawaiting] at hleads
    simpa [Opened, hleads.scopes, hleads.awaitingBrace, hawaiting] using hs
  · rw [if_neg hawaiting] at hleads
    have hlength : s.scopes.length = n := by simpa [Opened, hawaiting] using hs
    simp [Opened, hleads.scopes, hleads.awaitingBrace, hawaiting, push, hlength]

theorem endsWith_stripEnd (hsolid : endsIn isBlank u = false) :
    endsWith (stripEnd u) "\x7b" = endsIn (· = '{') u := by
  rcases eq_nil_or_concat' u with rfl | ⟨front, d, rfl⟩
  · rfl
  · rw [endsIn_concat] at hsolid
    rw [stripEnd, dropEndWhile_of_last getLast?_concat hsolid, endsIn_concat, Bool.eq_iff_iff,
      decide_eq_true_eq]
    show isSuffixOf ['{'] (front ++ [d]) = true ↔ _
    rw [isSuffixOf_iff_suffix]
    constructor
    · rintro ⟨other, heq⟩
      exact (append_inj_right' heq rfl |> singleton_inj.mp).symm
    · rintro rfl
      exact ⟨front, rfl⟩

theorem PlainPiece.ends (h : PlainPiece c u) : endsWith (stripEnd u) "\x7b" = false := by
  rw [endsWith_stripEnd h.solid]
  exact (opensLiteral_eq_false h.last).2.2

theorem OpeningPiece.ends (h : OpeningPiece c u) : endsWith (stripEnd u) "\x7b" = true := by
  have hsolid : endsIn isBlank u = false := by
    rw [endsIn, h.last]
    rfl
  rw [endsWith_stripEnd hsolid]
  exact h.endsIn_brace

/-- The move of a line, by the way in which blocks are written. -/
def lineMove (c : Conversion) (s : State) (l : Classified) : Move :=
  if c.style.closesBlocks then ToBrace.move c s l else ToIndent.move c s l

theorem meets_visit_lineMove (hc : c.hasLanguages = true) (s : State) (u : Text) :
    Yields (fun r => (lineMove c s (classify c.grammar u)).Leads c s u r.1)
    (visit c s (classify c.grammar u)) := by
  have hindent := ToIndent.meets_visit (.of_classify c s u)
  have hbrace := ToBrace.meets_visit (.of_classify c s u)
  rw [classify_line] at hindent hbrace
  cases c
  case plain | toIndentation | toBraces => cases hc
  case javaToPython | javascriptToPython | phpToPython => exact hindent
  all_goals exact hbrace

theorem PlainPiece.lineMove (h : PlainPiece c u) (hc : c.hasLanguages = true) (s : State) :
    (lineMove c s (classify c.grammar u)).IsPlain := by
  unfold Brace.lineMove
  by_cases hstyle : c.style.closesBlocks = true
  · rw [if_pos hstyle]
    have hphp : c ≠ .phpToPython := by
      rintro rfl
      cases hstyle
    refine h.braceMove hc s fun hkind => ?_
    rcases hkind with hkind | hkind <;> simp only [ToBrace.move, hkind]
    · exact h.braceReturn hc hphp hkind
    · exact h.braceVariable hc hstyle s hkind
  · rw [if_neg hstyle]
    exact h.indentMove hc s fun hkind => h.indentValue hc (Bool.eq_false_iff.mpr hstyle) hkind

theorem OpeningPiece.lineMove (h : OpeningPiece c u) (hc : c.hasLanguages = true) (s : State)
    (hforgets : forgets c (classify c.grammar u) = false)
    (hopen : (classify c.grammar u).kind ≠ .openBrace) :
    (lineMove c s (classify c.grammar u)).IsOpening := by
  unfold Brace.lineMove
  by_cases hstyle : c.style.closesBlocks = true
  · rw [if_pos hstyle]
    exact h.braceMove hc hstyle s hforgets hopen
  · rw [if_neg hstyle]
    exact h.indentMove hc (Bool.eq_false_iff.mpr hstyle) s hforgets hopen

theorem lineMove_of_kind {l : Classified} (s : State) :
    (l.kind = .openBrace → lineMove c s l = .brace) ∧
    (l.kind = .closeBrace → lineMove c s l = .closes) := by
  constructor <;> intro hkind <;> unfold lineMove <;> split <;>
    simp only [ToBrace.move, ToIndent.move, hkind]

theorem kind_brace (hc : c.hasLanguages = true) : (classify c.grammar ['{']).kind = .openBrace := by
  cases c
  case plain | toIndentation | toBraces => cases hc
  all_goals decide

/-- What a piece adds to the braces that were read. -/
inductive Adds (c : Conversion) (u : Text) : Nat → Nat → Prop
  | plain (h : PlainPiece c u) (n : Nat) : Adds c u n n
  | opening (h : OpeningPiece c u) (hforgets : forgets c (classify c.grammar u) = false) (n : Nat) :
      Adds c u n (n + 1)
  | closing (h : isClosingLine u = true) (n : Nat) : Adds c u (n + 1) n

theorem endsIn_of_isClosingLine (h : isClosingLine u = true) : endsIn (· = '{') u = false := by
  obtain ⟨-, -, -, hmarks⟩ := isClosingLine_parts h
  rw [endsIn, Option.any_eq_false]
  intro d hd
  have hmem := hmarks d (mem_of_getLast? hd)
  rw [decide_eq_false_iff_not]
  rintro rfl
  exact absurd hmem (by decide)

variable {m k : Nat} {line source : Text} {pre rest : List Text}

/-- A piece inside a skipped scope. -/
theorem meets_skipPiece_counted (h : Adds c u n m) (hs : s.Opened n) :
    Yields (Counted s u m) (skipPiece s u) := by
  have hother : endsIn (· = '{') u = false → (u = ['{'] && s.awaitingBrace) = false := by
    intro hends
    rw [Bool.and_eq_false_iff, decide_eq_false_iff_not]
    refine .inl fun hbrace => ?_
    rw [hbrace] at hends
    cases hends
  unfold skipPiece
  cases h with
  | plain h =>
    have hends := (opensLiteral_eq_false h.last).2.2
    have hclose : Grammar.closeBraceForm.pattern.matchesStart u = false := by
      rw [matchesStart, closeBrace_eq_none h.line h.close]
      rfl
    rw [hother hends, hends, hclose]
    exact .ok ⟨n, hs, Nat.le_refl n, fun _ => rfl⟩
  | opening h hforgets =>
    refine .ite (fun hbrace => .ok ?_) fun _ => ?_
    · rw [Bool.and_eq_true] at hbrace
      have hnext : Opened { s with awaitingBrace := false } (n + 1) := by
        simpa [Opened, hbrace.2] using hs
      exact ⟨n + 1, hnext, Nat.le_refl _, fun _ => rfl⟩
    · rw [if_pos h.endsIn_brace]
      have hnext : (s.push .skipped).Opened (n + 1) := by
        have hlength : s.scopes.length = n + if s.awaitingBrace then 1 else 0 := hs
        show s.scopes.length + 1 = n + 1 + if s.awaitingBrace then 1 else 0
        omega
      exact .ok ⟨n + 1, hnext, Nat.le_refl _, fun _ => rfl⟩
  | closing h =>
    have hends := endsIn_of_isClosingLine h
    rw [hother hends, hends, matchesStart_closeBrace h]
    have hlength : s.scopes.length = m + 1 + if s.awaitingBrace then 1 else 0 := hs
    cases hscopes : s.scopes with
    | nil => exact .error trivial
    | cons scope rest =>
      rw [hscopes, length_cons] at hlength
      have hnext : Opened { s with scopes := rest } m := by
        show rest.length = m + if s.awaitingBrace then 1 else 0
        omega
      exact .ok ⟨m, hnext, Nat.le_refl _, fun _ => rfl⟩

theorem counted_of_settled (hs : s.Opened n) (hne : u ≠ ['{'])
    (hnext : ∀ n', Opened { s with awaitingBrace := false } n' → n ≤ n' →
    t.Opened (n' + m - k)) (hk : k ≤ n + m) : Counted s u (n + m - k) t := by
  refine ⟨(n + if s.awaitingBrace then 1 else 0) + m - k, hnext _ hs.settle (by omega), by omega,
    fun hcase => ?_⟩
  have hawaiting := hcase.resolve_right hne
  simp [hawaiting]

/-- A piece is counted wherever it is visited. -/
theorem meets_visitPiece_counted (hc : c.hasLanguages = true) (h : Adds c u n m) (hs : s.Opened n) :
    Yields (Counted s u m) (visitPiece c s u) := by
  simp only [visitPiece]
  refine .either (meets_skipPiece_counted h hs) ?_
  by_cases hkind : (classify c.grammar u).kind = .openBrace
  · rw [if_pos hkind]
    refine (meets_visit_lineMove hc s u).bind fun r hr => .ok ?_
    rw [(lineMove_of_kind s).1 hkind] at hr
    have hnext :=
      (opened_of_brace hr hs).of_eq (t := r.1.emit c (min (s.depth c) (r.1.depth c)) r.2) rfl rfl
    cases h with
    | plain h => exact absurd hkind (h.kind_ne hc).1
    | opening h hforgets => exact ⟨n + 1, hnext, Nat.le_refl _, fun _ => rfl⟩
    | closing h =>
      rw [kind_of_isClosingLine hc h] at hkind
      cases hkind
  · rw [if_neg hkind]
    have hne : u ≠ ['{'] := by
      rintro rfl
      exact hkind (kind_brace hc)
    refine (meets_visit_lineMove hc { s with awaitingBrace := false } u).bind fun r hr => .ok ?_
    cases h with
    | plain h =>
      refine counted_of_settled (m := 0) (k := 0) hs hne (fun n' hn' _ => ?_) (Nat.zero_le _)
      exact ((h.lineMove hc _).opened hr hn' rfl h.ends).of_eq rfl rfl
    | opening h hforgets =>
      refine counted_of_settled (m := 1) (k := 0) hs hne (fun n' hn' _ => ?_) (Nat.zero_le _)
      exact ((h.lineMove hc _ hforgets hkind).opened hr hn' rfl h.ends).of_eq rfl rfl
    | closing h =>
      refine counted_of_settled (m := 0) (k := 1) hs hne (fun n' hn' hle => ?_) (by omega)
      rw [(lineMove_of_kind _).2 (kind_of_isClosingLine hc h)] at hr
      obtain ⟨k, rfl⟩ : ∃ k, n' = k + 1 := ⟨n' - 1, by omega⟩
      exact (opened_of_closes hr hn' rfl).of_eq rfl rfl

/-- A line without code: blank, a tag or a line comment. -/
def isPassed (c : Conversion) (line : Text) : Bool :=
  (codeOf c line).isEmpty || (lineComment? c (codeOf c line)).isSome

/-- If a header waits for its brace, the line has no code or is the brace. -/
def keepsWaiting (c : Conversion) (s : State) (line : Text) : Bool :=
  !s.awaitingBrace || isPassed c line || codeOf c line = ['{']

/-- Every header that waits for its brace gets it, with nothing but lines without code in
between. -/
def bracesFollow (c : Conversion) : State → List Text → Bool
  | s, [] => !s.awaitingBrace
  | s, line :: rest =>
    keepsWaiting c s line &&
      match visitLine c s line with
      | .ok next => bracesFollow c next rest
      | .error _ => true

/-- A line whose scope is not forgotten. -/
def remembersBrace (c : Conversion) (line : Text) : Bool :=
  (Block.split (codeOf c line)).all fun piece => !forgets c (classify c.grammar (prepare c piece))

/-- A line with code and at most one brace is visited as one piece. -/
theorem exists_adds (hline : '\n' ∉ line) (hshape : hasOneBrace c (codeOf c line) = true)
    (hremembers : remembersBrace c line = true) (hcode : isPassed c line = false)
    (hm : openAfter n line = some m) :
    ∃ piece, Block.split (codeOf c line) = [piece] ∧ Adds c (prepare c piece) n m ∧
      includes (codeOf c line) "/*" = false ∧
      (codeOf c line = ['{'] → prepare c piece = ['{']) := by
  have hstrip := strip_codeOf c line
  have hlineOf : '\n' ∉ codeOf c line := not_mem_codeOf hline
  have hdepth : openAfter n (codeOf c line) = some m := by
    rwa [openAfter_congr (filter_codeOf c line)]
  unfold remembersBrace at hremembers
  unfold isPassed at hcode
  generalize codeOf c line = code at *
  have hne : code.isEmpty = false := (Bool.or_eq_false_iff.mp hcode).1
  simp only [hasOneBrace, Bool.or_eq_true, hne, Bool.false_eq_true, false_or] at hshape
  rcases hshape with (hplain | hopening) | hclosing
  · obtain ⟨hbraces, hcomment, -, -⟩ := isPlainLine_parts hplain
    rw [openAfter_of_plain hbraces, Option.some.injEq] at hdepth
    have hsplit := Block.split_of_plain hstrip (isEmpty_eq_false_iff.mp hne) hbraces
    refine ⟨code, hsplit, ?_, hcomment, ?_⟩
    · rw [← hdepth]
      exact .plain (plainPiece hplain hstrip hlineOf) n
    · rintro rfl
      cases hplain
  · obtain ⟨piece, hsplit, hpiece⟩ := split_of_isOpeningLine hopening hstrip hlineOf
    obtain ⟨head, rfl, hhead, hcomment, -⟩ := isOpeningLine_parts hopening
    rw [openAfter_append_of (openAfter_of_plain hhead n)] at hdepth
    rw [hsplit, all_cons, Bool.and_eq_true, Bool.not_eq_true'] at hremembers
    refine ⟨piece, hsplit, ?_, hcomment, fun hbrace => ?_⟩
    · rw [← Option.some.inj hdepth]
      exact .opening hpiece hremembers.1 n
    · rw [hbrace] at hsplit
      obtain rfl : ['{'] = piece := singleton_inj.mp hsplit
      cases c <;> rfl
  · obtain ⟨glue, rfl, hglue, hmarks⟩ := isClosingLine_parts hclosing
    have hother : ∀ d ∈ glue, isBrace d = false := Block.forall_glue (by decide) hglue
    have hslash : '/' ∉ '}' :: glue := fun hmem => absurd (hmarks _ hmem) (by decide)
    cases n with
    | zero => cases hdepth
    | succ n =>
      rw [openAfter_close, openAfter_of_plain hother, Option.some.injEq] at hdepth
      refine ⟨_, Block.split_of_closing hglue, ?_, includes_eq_false hslash, fun h => by cases h⟩
      rw [prepare_of_isClosingLine hclosing, ← hdepth]
      exact .closing hclosing n

theorem plain_of_isPassed (hshape : hasOneBrace c (codeOf c line) = true)
    (hpassed : isPassed c line = true) :
    (∀ d ∈ codeOf c line, isBrace d = false) ∧ includes (codeOf c line) "/*" = false := by
  unfold isPassed at hpassed
  generalize codeOf c line = code at *
  have hnil : code.isEmpty = true → (∀ d ∈ code, isBrace d = false) ∧
      includes code "/*" = false := by
    intro hempty
    rw [isEmpty_iff.mp hempty]
    exact ⟨fun d hd => (by cases hd), rfl⟩
  rw [Bool.or_eq_true] at hpassed
  rcases hpassed with hempty | hcomment
  · exact hnil hempty
  · simp only [hasOneBrace, Bool.or_eq_true] at hshape
    rcases hshape with ((hempty | hplain) | hopening) | hclosing
    · exact hnil hempty
    · obtain ⟨hbraces, hopens, -, -⟩ := isPlainLine_parts hplain
      exact ⟨hbraces, hopens⟩
    · obtain ⟨-, -, -, -, hnone⟩ := isOpeningLine_parts hopening
      rw [hnone] at hcomment
      cases hcomment
    · obtain ⟨glue, rfl, -, -⟩ := isClosingLine_parts hclosing
      cases c <;> cases hcomment

theorem openAfter_of_isPassed (hshape : hasOneBrace c (codeOf c line) = true)
    (hpassed : isPassed c line = true) : openAfter n line = some n := by
  rw [← openAfter_congr (filter_codeOf c line)]
  exact openAfter_of_plain (plain_of_isPassed hshape hpassed).1 n

theorem meets_visitLine_closed (hline : '\n' ∉ line)
    (hshape : hasOneBrace c (codeOf c line) = true) (hremembers : remembersBrace c line = true)
    (hcomment : s.inComment = false) (hm : openAfter n line = some m) :
    Yields (fun t => t.inComment = false) (visitLine c s line) := by
  refine (meets_visitLine_inComment c s line).imp fun t ht => ht.trans ?_
  rw [hcomment]
  refine lastOpens_of_not_includes ?_
  by_cases hpassed : isPassed c line = true
  · exact (plain_of_isPassed hshape hpassed).2
  · obtain ⟨-, -, -, hopens, -⟩ :=
      exists_adds hline hshape hremembers (Bool.eq_false_iff.mpr hpassed) hm
    exact hopens

/-- A line is counted. -/
theorem meets_visitLine_counted (hc : c.hasLanguages = true) (hline : '\n' ∉ line)
    (hshape : hasOneBrace c (codeOf c line) = true) (hremembers : remembersBrace c line = true)
    (hcomment : s.inComment = false) (hs : s.Opened n) (hm : openAfter n line = some m) :
    Yields (fun t => ∃ k, t.Opened k ∧ m ≤ k ∧ (keepsWaiting c s line = true → k = m))
    (visitLine c s line) := by
  by_cases hpassed : isPassed c line = true
  · obtain rfl : n = m := Option.some.inj ((openAfter_of_isPassed hshape hpassed).symm.trans hm)
    have hnone : piecesOf c s line = [] := by
      unfold isPassed at hpassed
      rw [Bool.or_eq_true] at hpassed
      refine if_pos ?_
      rcases hpassed with h | h <;> simp [h]
    rcases visitLine_cases c s line with ⟨-, next, hnext, hagrees⟩ | hvisit
    · rw [hnext]
      exact .ok ⟨n, hs.of_eq hagrees.scopes hagrees.awaitingBrace, Nat.le_refl n, fun _ => rfl⟩
    · rw [hvisit, hnone]
      exact .ok ⟨n, hs, Nat.le_refl n, fun _ => rfl⟩
  · have hcode := Bool.eq_false_iff.mpr hpassed
    obtain ⟨piece, hsplit, hadds, hopens, hbrace⟩ := exists_adds hline hshape hremembers hcode hm
    have hwaiting : keepsWaiting c s line = true → s.awaitingBrace = false ∨
        prepare c piece = ['{'] := by
      intro hwaiting
      simp only [keepsWaiting, hcode, Bool.or_false, Bool.or_eq_true, Bool.not_eq_true',
        decide_eq_true_eq] at hwaiting
      exact hwaiting.imp_right hbrace
    unfold isPassed at hcode
    rw [Bool.or_eq_false_iff, isEmpty_eq_false_iff, Option.isSome_eq_false_iff,
      Option.isNone_iff_eq_none] at hcode
    rw [visitLine_of_code c s hcomment hcode.1 hopens hcode.2, hsplit]
    simp only [visitPieces]
    have hcontent : Opened { s with hasContent := true } n := hs
    refine .ite (fun hempty => .ok ?_) fun _ => ?_
    · -- Only a plain piece can be empty.
      rw [isEmpty_iff.mp hempty] at hadds
      cases hadds with
      | plain => exact ⟨n, hcontent, Nat.le_refl n, fun _ => rfl⟩
      | opening h => cases h.last
      | closing h => cases h
    · refine (meets_visitPiece_counted hc hadds hcontent).bind fun t ht => .ok ?_
      obtain ⟨k, hk, hle, hexact⟩ := ht
      exact ⟨k, hk, hle, fun hkeeps => hexact (hwaiting hkeeps)⟩

/-- After some lines there are at least as many braces read as are open in them, and exactly as many
if every header got its brace. -/
theorem meets_run_counted (rest : List Text) (hc : c.hasLanguages = true)
    (hline : ∀ line ∈ pre, '\n' ∉ line)
    (hshape : ∀ line ∈ pre, hasOneBrace c (codeOf c line) = true)
    (hremembers : ∀ line ∈ pre, remembersBrace c line = true) (hcomment : s.inComment = false)
    (hs : s.Opened n) (hle : m ≤ n) (hk : openAfter m pre.flatten = some k) : Yields
      (fun t => ∃ k', t.Opened k' ∧ k ≤ k' ∧
      (n = m → bracesFollow c s (pre ++ rest) = true → k' = k)) (pre.foldlM (visitLine c) s) := by
  induction pre generalizing s n m with
  | nil =>
    obtain rfl : m = k := Option.some.inj hk
    exact .ok ⟨n, hs, hle, fun heq _ => heq⟩
  | cons line pre ih =>
    rw [forall_mem_cons] at hline hshape hremembers
    rw [flatten_cons, openAfter_append, Option.bind_eq_some_iff] at hk
    obtain ⟨m', hm', hk⟩ := hk
    -- The scopes of headers that were given up stay below the ones of the line.
    obtain ⟨more, rfl⟩ : ∃ more, n = m + more := ⟨n - m, by omega⟩
    have hn := openAfter_add hm' more
    have hcounted := meets_visitLine_counted hc hline.1 hshape.1 hremembers.1 hcomment hs hn
    have hclosed : Yields (fun t => t.inComment = false) (visitLine c s line) :=
      meets_visitLine_closed hline.1 hshape.1 hremembers.1 hcomment hm'
    rw [foldlM_cons]
    refine (hcounted.and hclosed).remember.bind fun t ht => ?_
    obtain ⟨hvisit, ⟨k', hk', hle', hexact⟩, hnext⟩ := ht
    refine (ih hline.2 hshape.2 hremembers.2 hnext hk' (by omega) hk).imp fun u hu => ?_
    obtain ⟨last, hlast, hbound, hsame⟩ := hu
    refine ⟨last, hlast, hbound, fun hstart hfollow => hsame ?_ ?_⟩
    · simp only [cons_append, bracesFollow, Bool.and_eq_true] at hfollow
      have := hexact hfollow.1
      omega
    · simp only [cons_append, bracesFollow, Bool.and_eq_true, hvisit] at hfollow
      exact hfollow.2

/-- The scopes that a move opens are written. -/
def Move.IsShown (c : Conversion) : Move → Prop
  | .opens scope | .enters scope _ => c.hides scope = false
  | _ => True

theorem ToIndent.isShown_move (c : Conversion) (s : State) (l : Classified) :
    (move c s l).IsShown c := by
  refine move_elim trivial trivial trivial trivial rfl fun _ => ?_
  split <;> rfl

/-- The moves of JavaScript lines written for C#. -/
theorem ToBrace.isShown_move (s : State) (u : Text) :
    (move .javascriptToCSharp s (classify Conversion.javascriptToCSharp.grammar u)).IsShown
    .javascriptToCSharp := by
  have hother : ∀ kind ∈ [LineKind.namespaceLine, .mainHeader, .interfaceHeader],
      (classify Conversion.javascriptToCSharp.grammar u).kind ≠ kind := by
    intro kind hmem hkind
    have hnone :
        Conversion.javascriptToCSharp.grammar.filter (fun form => form.kind = kind) = [] := by
      simp only [mem_cons, not_mem_nil, or_false] at hmem
      rcases hmem with rfl | rfl | rfl <;> rfl
    obtain ⟨form, hform, -⟩ := found_of_kind hnone hkind (by rintro rfl; simp at hmem)
    cases hform
  exact move_elim trivial trivial trivial trivial rfl rfl
    (fun hkind => absurd rfl (hother _ (mem_append_left [LineKind.interfaceHeader] hkind)))
    (fun hkind => absurd hkind (hother _ (by simp))) fun _ => rfl

/-- All open scopes are written. -/
def State.IsShown (c : Conversion) (s : State) : Prop :=
  ∀ scope ∈ s.scopes, c.hides scope = false

theorem State.IsShown.depth (h : s.IsShown c) :
    s.depth c = c.style.baseDepth + s.scopes.length := by
  unfold State.depth
  rw [filter_eq_self.mpr fun scope hscope => by rw [h scope hscope]; rfl]

/-- Scopes stay shown under a move that opens no hidden one. -/
theorem Move.IsShown.leads {m : Move} (hm : m.IsShown c) (hleads : m.Leads c s u t)
    (hs : s.IsShown c) : t.IsShown c := by
  have hpush : ∀ {scope : Scope}, c.hides scope = false → t.scopes = scope :: s.scopes →
      t.IsShown c := by
    intro scope hscope hscopes
    unfold State.IsShown
    rw [hscopes, forall_mem_cons]
    exact ⟨hscope, hs⟩
  cases m with
  | stay =>
    unfold State.IsShown
    rw [hleads.scopes]
    exact hs
  | literal => exact hpush rfl hleads.scopes
  | opens scope | enters scope name => exact hpush hm hleads.scopes
  | brace =>
    simp only [Move.Leads] at hleads
    split at hleads
    · unfold State.IsShown
      rw [hleads.scopes]
      exact hs
    · exact hpush rfl hleads.scopes
  | closes =>
    obtain ⟨scope, after, hclose, hsame⟩ := hleads
    unfold State.IsShown
    rw [hsame.scopes]
    intro scope hscope
    refine hs scope ?_
    rcases closeBlock_cases hclose with ⟨-, -, rfl⟩ | ⟨first, rest, hscopes, -, rfl⟩
    · exact hscope
    · rw [hscopes]
      exact mem_cons_of_mem _ hscope

/-- The conversions to Python and the one from JavaScript to C# write every scope. -/
def writesScopes : List Conversion :=
  [.javascriptToPython, .javaToPython, .phpToPython, .javascriptToCSharp]

/-- A piece leaves every open scope written. -/
theorem meets_visitPiece_shown (hc : c ∈ writesScopes) (hs : s.IsShown c) (u : Text) :
    Yields (IsShown c) (visitPiece c s u) := by
  have hmove : ∀ before : State, (lineMove c before (classify c.grammar u)).IsShown c := by
    intro before
    simp only [writesScopes, mem_cons, not_mem_nil, or_false] at hc
    rcases hc with rfl | rfl | rfl | rfl
    · exact ToIndent.isShown_move _ before _
    · exact ToIndent.isShown_move _ before _
    · exact ToIndent.isShown_move _ before _
    · exact ToBrace.isShown_move before u
  have hlanguages : c.hasLanguages = true := by
    simp only [writesScopes, mem_cons, not_mem_nil, or_false] at hc
    rcases hc with rfl | rfl | rfl | rfl <;> rfl
  refine meets_visitPiece (fun hskip => by cases hs _ hskip) fun _ awaiting => ?_
  have hbefore : IsShown c { s with awaitingBrace := awaiting } := hs
  refine (meets_visit_lineMove hlanguages _ u).imp fun r hr _ => ?_
  have hafter : IsShown c r.1 := (hmove _).leads hr hbefore
  exact hafter

theorem meets_visitLine_shown (hc : c ∈ writesScopes) (hs : s.IsShown c) (line : Text) :
    Yields (IsShown c) (visitLine c s line) := by
  rcases visitLine_cases c s line with ⟨-, next, hnext, hagrees⟩ | hvisit
  · rw [hnext]
    refine .ok ?_
    unfold IsShown
    rw [hagrees.scopes]
    exact hs
  · rw [hvisit]
    have hcontent : IsShown c { s with hasContent := true } := hs
    exact meets_visitPieces (fun _ piece hs => meets_visitPiece_shown hc hs piece) hcontent _

theorem exists_openAfter (hlines : lines source = pre ++ rest)
    (hopen : openAfter 0 source ≠ none) : ∃ d, openAfter 0 pre.flatten = some d := by
  have hsource : openAfter 0 source = openAfter 0 (pre.flatten ++ rest.flatten) := by
    have hjoined : unlines (lines source) = source := join_splitOn '\n' source
    rw [← flatten_append, ← hlines, ← openAfter_unlines, hjoined]
  rw [hsource, openAfter_append] at hopen
  cases hpre : openAfter 0 pre.flatten with
  | none =>
    rw [hpre] at hopen
    exact absurd rfl hopen
  | some d => exact ⟨d, rfl⟩

/-- In a source with at most one brace on a line, in which every header gets its brace and no brace
is forgotten, the open scopes after any of its lines are those of the braces open in the lines,
unless a header waits for its brace. So the next line is written at the depth of its block. -/
theorem scopes_eq_open_braces (hc : c ∈ writesScopes) {source : Text} {pre rest : List Text}
    (hlines : lines source = pre ++ rest)
    (hshape : ∀ line ∈ lines source, hasOneBrace c (codeOf c line) = true)
    (hopen : openAfter 0 source ≠ none)
    (hfollow : bracesFollow c initial (lines source) = true)
    (hremembers : ∀ line ∈ lines source, remembersBrace c line = true)
    (hrun : (machine c).run pre = .ok s) (hsettled : s.awaitingBrace = false) :
    openAfter 0 (unlines pre) = some s.scopes.length ∧ s.depth c = s.scopes.length := by
  have hlanguages : c.hasLanguages = true ∧ c.style.baseDepth = 0 := by
    simp only [writesScopes, mem_cons, not_mem_nil, or_false] at hc
    rcases hc with rfl | rfl | rfl | rfl <;> exact ⟨rfl, rfl⟩
  have hline : ∀ line ∈ lines source, '\n' ∉ line := fun line hmem => not_mem_of_mem_splitOn hmem
  have hmem : ∀ line ∈ pre, line ∈ lines source := fun line hmem => by
    rw [hlines]
    exact mem_append_left _ hmem
  obtain ⟨d, hd⟩ := exists_openAfter hlines hopen
  have hinitial : initial.Opened 0 := rfl
  have hcounted := meets_run_counted rest hlanguages.1 (fun line h => hline line (hmem line h))
    (fun line h => hshape line (hmem line h)) (fun line h => hremembers line (hmem line h))
    rfl hinitial (Nat.le_refl 0) hd
  have hshown : Yields (IsShown c) ((machine c).run pre) :=
    LineMachine.meets_run (fun _ hscope => by cases hscope) fun _ line _ hs =>
      meets_visitLine_shown hc hs line
  rw [show pre.foldlM (visitLine c) initial = .ok s from hrun] at hcounted
  rw [hrun] at hshown
  obtain ⟨k, hk, -, hexact⟩ := hcounted.of_ok
  obtain rfl : k = d := hexact rfl (by rwa [← hlines])
  have hlength : s.scopes.length = k := by simpa [Opened, hsettled] using hk
  refine ⟨?_, ?_⟩
  · rw [openAfter_unlines, hd, hlength]
  · rw [hshown.of_ok.depth, hlanguages.2, Nat.zero_add]

/-- A header whose brace comes after a comment, a literal over two lines and an open block. -/
theorem scopes_eq_open_braces_nested :
    ∃ s, (machine .javascriptToPython).run
    (lines "function f()\n// c\n\x7b\nlet x = \x7b\n\x7d;\nif (a) \x7b") = .ok s ∧
      openAfter 0 (unlines (lines "function f()\n// c\n\x7b\nlet x = \x7b\n\x7d;\nif (a) \x7b")) =
      some s.scopes.length ∧ s.depth .javascriptToPython = s.scopes.length := by
  obtain ⟨s, hrun, hsettled⟩ : ∃ s, (machine .javascriptToPython).run
      (lines "function f()\n// c\n\x7b\nlet x = \x7b\n\x7d;\nif (a) \x7b") = .ok s ∧
      s.awaitingBrace = false :=
    ⟨_, rfl, rfl⟩
  have hlines : lines "function f()\n// c\n\x7b\nlet x = \x7b\n\x7d;\nif (a) \x7b\ng();" =
      lines "function f()\n// c\n\x7b\nlet x = \x7b\n\x7d;\nif (a) \x7b" ++ ["g();".toList] := by
    decide
  refine ⟨s, hrun, ?_⟩
  refine scopes_eq_open_braces (by decide) hlines (by decide +kernel) (by decide) ?_
    (by decide +kernel) hrun hsettled
  decide +kernel

/-- The brace at the end of a `return` statement is forgotten, so the brace that closes it closes
the function, and the statement after it is written outside. -/
theorem return_forgets_brace :
    (∃ s, (machine .javascriptToPython).run (lines "function f() \x7b\n  return \x7b") = .ok s ∧
      s.awaitingBrace = false ∧ openAfter 0 "function f() \x7b\n  return \x7b" = some 2 ∧
      s.scopes.length = 1) ∧
      (machine .javascriptToPython).convert
      "function f() \x7b\n  return \x7b\n  \x7d;\n  g();\n\x7d" =
        .ok "def f():\n    return \x7b\ng()" :=
  ⟨⟨_, rfl, rfl, rfl, rfl⟩, by decide +kernel⟩

end CodeConverter.Brace

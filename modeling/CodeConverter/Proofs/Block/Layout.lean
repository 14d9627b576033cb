import CodeConverter.Block
import CodeConverter.Proofs.Program.Layout

/-!
# Splitting the lines of a layout

A line of a layout is split into the pieces it was written from, whatever blanks stand around them:
a brace after a header opens a block, a brace alone stays a piece of its own, and what stands before
a closing brace is finished by it.
-/

namespace CodeConverter.Block

open Text Literal Program List Bool Progress

/-- A character of code that splitting passes over: no quote, no brace and no mark of a comment. -/
def isPassed (c : Char) : Bool :=
  !isQuote c && c ≠ '{' && c ≠ '}' && c ≠ '/'

/-- A text that splitting keeps whole. -/
structure Solid (t : Text) : Prop where
  nonempty : t ≠ []
  stripped : strip t = t
  passed : ∀ c ∈ t, isPassed c = true
  /-- The text does not stick to a closing brace before it. -/
  apart : ∀ c ∈ t.head?, isGlue c = false

/-- A piece whose texts are kept whole and whose brace opens a block. -/
def Proper : Piece → Prop
  | .statement t => Solid t
  | .header t => Solid t
  | .opened t => Solid t ∧ isHeader t = true
  | .opening => True
  | .closing => True

variable {p : Progress} {t u : Text}

variable {c : Char} {gap current text line : Text} {piece : Piece} {pieces : List Piece}

theorem isPassed_of_isBlank (h : isBlank c = true) : isPassed c = true ∧ isGlue c = false := by
  have hother : ∀ d, isBlank d = false → c ≠ d := by
    rintro d hd rfl
    rw [h] at hd
    cases hd
  simp [isPassed, isQuote, isGlue, hother '\x27' rfl, hother '\x22' rfl, hother '`' rfl,
    hother '{' rfl, hother '}' rfl, hother '/' rfl, hother ')' rfl,
    hother ';' rfl, hother ',' rfl]

theorem splitFrom_passed (hquote : p.quote = none) (hc : isPassed c = true)
    (hglue : p.glued = true → isGlue c = false) (t : Text) :
    splitFrom p (c :: t) = splitFrom (p.push c) t := by
  simp only [isPassed, and_eq_true, not_eq_true', decide_eq_true_eq] at hc
  obtain ⟨⟨⟨hnoquote, hopening⟩, hclosing⟩, hslash⟩ := hc
  have hfree : (p.glued && isGlue c) = false := by
    cases hglued : p.glued with
    | false => rfl
    | true => rw [hglue hglued]; rfl
  rw [splitFrom, hquote]
  simp only [hslash, decide_false, Bool.false_and, false_eq_true, if_false, code, hfree,
    hnoquote, hopening, hclosing]

theorem exists_splitFrom_append (hquote : p.quote = none) (ht : ∀ c ∈ t, isPassed c = true)
    (hglue : p.glued = true → ∀ c ∈ t.head?, isGlue c = false) (u : Text) :
    ∃ q : Progress, splitFrom p (t ++ u) = splitFrom q u ∧ q.pieces = p.pieces ∧
    q.current = t.reverse ++ p.current ∧
      q.braces = p.braces ∧ q.quote = none ∧ (q.glued = true → t = [] ∧ p.glued = true) := by
  induction t generalizing p with
  | nil => exact ⟨p, rfl, rfl, rfl, rfl, hquote, fun h => ⟨rfl, h⟩⟩
  | cons c t ih =>
    obtain ⟨q, hq, hpieces, hcurrent, hbraces, hnone, hglued⟩ := ih (p := p.push c) hquote
      (fun d hd => ht d (mem_cons_of_mem _ hd)) (fun h => by cases h)
    refine ⟨q, ?_, hpieces, ?_, hbraces, hnone, fun h => by cases (hglued h).2⟩
    · rw [cons_append, splitFrom_passed hquote (ht c mem_cons_self) fun h => hglue h c rfl]
      exact hq
    · rw [hcurrent, push, reverse_cons, append_assoc]
      rfl

/-- What the current piece holds after a piece of the layout is read. -/
def held : Piece → Text
  | .statement t => t
  | .header t => t
  | .opened _ => []
  | .opening => "\x7b"
  | .closing => []

/-- Progress between two pieces of a layout. -/
structure Between (p : Progress) (current : Text) : Prop where
  quote : p.quote = none
  piece : p.piece = current
  braces : ∀ b ∈ p.braces, b = .block

theorem Blank.passed (h : Blank gap) : ∀ c ∈ gap, isPassed c = true := fun c hc =>
  (isPassed_of_isBlank (h c hc)).1

theorem apart_append (hgap : Blank gap) (ht : ∀ c ∈ t.head?, isGlue c = false) :
    ∀ c ∈ (gap ++ t).head?, isGlue c = false := by
  cases gap with
  | nil => exact ht
  | cons d gap =>
    intro c hc
    cases hc
    exact (isPassed_of_isBlank (hgap d mem_cons_self)).2

theorem exists_splitFrom_blank (h : Between p current) (hgap : Blank gap) (u : Text) :
    ∃ q : Progress, splitFrom p (gap ++ u) = splitFrom q u ∧ q.finish = p.finish ∧
    q.pieces = p.pieces ∧ Between q current := by
  obtain ⟨q, hq, hpieces, hcurrent, hbraces, hnone, -⟩ :=
    exists_splitFrom_append h.quote (Blank.passed hgap)
    (fun _ => by simpa using apart_append hgap (t := []) nofun) u
  have hpiece : q.piece = p.piece := by
    rw [piece, hcurrent, reverse_append, reverse_reverse]
    exact strip_append_blank hgap
  refine ⟨q, hq, ?_, hpieces, hnone, hpiece.trans h.piece, by rw [hbraces]; exact h.braces⟩
  rw [finish, finish, hpiece, hpieces]

/-- A solid text becomes the current piece. -/
theorem exists_splitFrom_solid (h : Between p []) (hgap : Blank gap) (ht : Solid t) (u : Text) :
    ∃ q : Progress, splitFrom p (gap ++ (t ++ u)) = splitFrom q u ∧ q.finish = t :: p.finish ∧
    q.pieces = p.finish ∧ Between q t := by
  have hpassed : ∀ c ∈ gap ++ t, isPassed c = true := by
    intro c hc
    rcases mem_append.mp hc with hc | hc
    · exact Blank.passed hgap c hc
    · exact ht.passed c hc
  obtain ⟨q, hq, hpieces, hcurrent, hbraces, hnone, -⟩ := exists_splitFrom_append h.quote hpassed
    (fun _ => apart_append hgap ht.apart) u
  have hfinish : p.finish = p.pieces := by
    rw [finish, h.piece]
    rfl
  have hpiece : q.piece = t := by
    have hblank : ∀ c ∈ p.current.reverse ++ gap, isBlank c = true := by
      intro c hc
      rcases mem_append.mp hc with hc | hc
      · exact strip_eq_nil_iff.mp h.piece c hc
      · exact hgap c hc
    have hparts := strip_append hblank ht.stripped (forall_mem_nil _)
    rw [piece, hcurrent, reverse_append, reverse_reverse, ← append_assoc]
    rwa [append_nil] at hparts
  refine ⟨q, ?_, ?_, ?_, hnone, hpiece, by rw [hbraces]; exact h.braces⟩
  · rw [← append_assoc]
    exact hq
  · rw [finish, hpiece, if_neg (by simpa using ht.nonempty), hpieces, hfinish]
  · rw [hpieces, hfinish]

theorem splitFrom_opening (hquote : p.quote = none) (t : Text) :
    splitFrom p ('{' :: t) = splitFrom p.openBrace t := by
  have hfree : (p.glued && isGlue '{') = false := by
    cases p.glued <;> rfl
  rw [splitFrom, hquote]
  show splitFrom (p.code '{') t = _
  rw [code, hfree]
  rfl

theorem splitFrom_closing (hquote : p.quote = none) (t : Text) :
    splitFrom p ('}' :: t) = splitFrom p.closeBrace t := by
  have hfree : (p.glued && isGlue '}') = false := by
    cases p.glued <;> rfl
  rw [splitFrom, hquote]
  show splitFrom (p.code '}') t = _
  rw [code, hfree]
  rfl

/-- A piece of the layout is finished as the next piece of the line. -/
theorem exists_splitFrom_piece (h : Between p current)
    (hproper : Proper piece) (hwritten : piece.Written text) (hgap : Blank gap)
    (hfits : current ≠ [] → piece = .closing) (rest : Text) :
    ∃ q : Progress, splitFrom p (gap ++ (text ++ rest)) = splitFrom q rest ∧
    q.finish = piece.text :: p.finish ∧
      q.quote = none ∧ q.piece = held piece ∧ (piece ≠ .opening → ∀ b ∈ q.braces, b = .block) := by
  cases hwritten with
  | statement | header =>
    obtain rfl : current = [] := Classical.byContradiction fun hne => by cases hfits hne
    obtain ⟨q, hq, hfinish, -, hbetween⟩ := exists_splitFrom_solid h hgap hproper rest
    exact ⟨q, hq, hfinish, hbetween.quote, hbetween.piece, fun _ => hbetween.braces⟩
  | opened t hinner =>
    obtain rfl : current = [] := Classical.byContradiction fun hne => by cases hfits hne
    obtain ⟨hsolid, hheader⟩ := hproper
    obtain ⟨q, hq, -, hpieces, hbetween⟩ :=
      exists_splitFrom_solid h hgap hsolid (_ ++ ("\x7b" ++ rest))
    obtain ⟨r, hr, -, hsame, hafter⟩ := exists_splitFrom_blank hbetween hinner ("\x7b" ++ rest)
    have hopen : r.openBrace = { r with
        pieces := (t ++ " \x7b") :: r.pieces, current := [], braces := .block :: r.braces,
        glued := false } := by
      rw [openBrace, hafter.piece, if_pos hheader]
    refine ⟨r.openBrace, ?_, ?_, ?_, ?_, ?_⟩
    · rw [append_assoc, append_assoc, hq, hr]
      exact splitFrom_opening hafter.quote rest
    · rw [hopen, ← hpieces, ← hsame]
      rfl
    · rw [hopen]
      exact hafter.quote
    · rw [hopen]
      rfl
    · intro _ b hb
      rw [hopen] at hb
      rcases mem_cons.mp hb with rfl | hb
      · rfl
      · exact hafter.braces b hb
  | opening =>
    obtain rfl : current = [] := Classical.byContradiction fun hne => by cases hfits hne
    obtain ⟨q, hq, hfinish, -, hbetween⟩ := exists_splitFrom_blank h hgap ("\x7b" ++ rest)
    have hopen : q.openBrace = { q.push '{' with braces := .object :: q.braces } := by
      rw [openBrace, hbetween.piece, if_neg (by decide)]
    have hpiece : q.openBrace.piece = "\x7b" := by
      have hblank : ∀ c ∈ q.current.reverse, isBlank c = true := strip_eq_nil_iff.mp hbetween.piece
      have hparts := strip_append (t := "\x7b") hblank rfl (forall_mem_nil _)
      rw [hopen, piece, push, reverse_cons]
      rwa [append_nil] at hparts
    refine ⟨q.openBrace, ?_, ?_, ?_, hpiece, fun hne => absurd rfl hne⟩
    · rw [hq]
      exact splitFrom_opening hbetween.quote rest
    · have hbefore : q.finish = q.pieces := by
        rw [finish, hbetween.piece]
        rfl
      rw [finish, hpiece, hopen, ← hfinish, hbefore]
      rfl
    · rw [hopen]
      exact hbetween.quote
  | closing =>
    obtain ⟨q, hq, hfinish, -, hbetween⟩ := exists_splitFrom_blank h hgap ("\x7d" ++ rest)
    have hclose : q.closeBrace = { q with
        pieces := "\x7d" :: q.finish, current := [], braces := q.braces.drop 1,
        glued := true } := by
      rw [closeBrace]
      split
      · rename_i rest hrest
        cases hbetween.braces .object (by rw [hrest]; exact mem_cons_self)
      · rfl
    refine ⟨q.closeBrace, ?_, ?_, ?_, ?_, ?_⟩
    · rw [hq]
      exact splitFrom_closing hbetween.quote rest
    · rw [hclose, ← hfinish]
      rfl
    · rw [hclose]
      exact hbetween.quote
    · rw [hclose]
      rfl
    · intro _ b hb
      rw [hclose] at hb
      exact hbetween.braces b (mem_of_mem_drop hb)

theorem eq_closing_of_joins {after : Piece} (h : piece.joins after = true)
    (hheld : held piece ≠ []) : after = .closing := by
  cases piece with
  | statement t =>
    cases after <;> first | rfl | cases h
  | header t => cases h
  | opened t => exact absurd rfl hheld
  | opening => cases h
  | closing => exact absurd rfl hheld

/-- The rest of a line is split into its pieces. -/
theorem splitFrom_onLine (hline : OnLine pieces line) (hproper : ∀ piece ∈ pieces, Proper piece)
    (h : Between p current) (hfits : current ≠ [] → pieces.head? = some .closing) :
    splitFrom p line = p.finish.reverse ++ pieces.map Piece.text := by
  induction hline generalizing p current with
  | @last piece gap text trail hgap htrail hwritten =>
    obtain ⟨q, hq, hfinish, hquote, hpiece, -⟩ :=
      exists_splitFrom_piece h (hproper piece mem_cons_self) hwritten hgap
      (fun hne => Option.some.inj (hfits hne)) trail
    -- Only blanks follow, so the braces that are open do not matter any more.
    obtain ⟨r, hr, hpieces, hcurrent, -⟩ := exists_splitFrom_append hquote (Blank.passed htrail)
      (fun _ => by simpa using apart_append htrail (t := []) nofun) []
    have hsame : r.piece = q.piece := by
      rw [Progress.piece, hcurrent, reverse_append, reverse_reverse]
      exact strip_append_blank htrail
    rw [append_nil] at hr
    rw [hq, hr, splitFrom, finish, hsame, hpieces]
    show q.finish.reverse = _
    rw [hfinish, reverse_cons]
    rfl
  | @next piece after pieces gap text line hgap hwritten hjoins _ ih =>
    obtain ⟨q, hq, hfinish, hquote, hpiece, hbraces⟩ :=
      exists_splitFrom_piece h (hproper piece mem_cons_self) hwritten
      hgap (fun hne => Option.some.inj (hfits hne)) line
    have hopening : piece ≠ .opening := by
      rintro rfl
      cases hjoins
    rw [hq, ih (fun piece hmem => hproper piece (mem_cons_of_mem _ hmem)) ⟨hquote, hpiece,
      hbraces hopening⟩
      fun hne => congrArg some (eq_closing_of_joins hjoins hne), hfinish, reverse_cons,
      append_assoc]
    rfl

theorem written_ends (hproper : Proper piece) (hwritten : piece.Written text) :
    text ≠ [] ∧ strip text = text := by
  cases hwritten with
  | statement | header => exact ⟨hproper.nonempty, hproper.stripped⟩
  | opened t hgap =>
    obtain ⟨first, rest, rfl⟩ := exists_cons_of_ne_nil hproper.1.nonempty
    refine ⟨by simp, strip_eq_self_iff.mpr ⟨fun c hc => ?_, fun c hc => ?_⟩⟩
    · exact (strip_eq_self_iff.mp hproper.1.stripped).1 c hc
    · rw [← append_assoc, getLast?_append_of_ne_nil _ (by decide)] at hc
      cases hc
      decide
  | opening | closing => exact ⟨by decide, by decide⟩

theorem onLine_lead {lead : Text} (hlead : Blank lead) (hline : OnLine pieces line) :
    OnLine pieces (lead ++ line) := by
  have hboth : ∀ {gap : Text}, Blank gap → Blank (lead ++ gap) :=
    fun hgap => forall_mem_append.mpr ⟨hlead, hgap⟩
  cases hline with
  | last hgap htrail hwritten =>
    rw [← append_assoc]
    exact .last (hboth hgap) htrail hwritten
  | next hgap hwritten hjoins hrest =>
    rw [← append_assoc]
    exact .next (hboth hgap) hwritten hjoins hrest

/-- A line without the blanks around it is a line of the same pieces. -/
theorem exists_onLine_stripped (hline : OnLine pieces line)
    (hproper : ∀ piece ∈ pieces, Proper piece) :
    ∃ lead body trail, line = lead ++ (body ++ trail) ∧ Blank lead ∧ Blank trail ∧ body ≠ [] ∧
    strip body = body ∧ OnLine pieces body := by
  induction hline with
  | @last piece gap text trail hgap htrail hwritten =>
    obtain ⟨hne, hstrip⟩ := written_ends (hproper piece mem_cons_self) hwritten
    refine ⟨gap, text, trail, rfl, hgap, htrail, hne, hstrip, ?_⟩
    have hbare := @OnLine.last piece [] text [] (forall_mem_nil _) (forall_mem_nil _) hwritten
    rwa [append_nil] at hbare
  | @next piece after pieces gap text line hgap hwritten hjoins _ ih =>
    obtain ⟨hne, hstrip⟩ := written_ends (hproper piece mem_cons_self) hwritten
    obtain ⟨lead, body, trail, rfl, hlead, htrail, hbody, hstripped, honline⟩ :=
      ih fun piece hmem => hproper piece (mem_cons_of_mem _ hmem)
    refine ⟨gap, text ++ (lead ++ body), trail, ?_, hgap, htrail, by simp [hne], ?_, ?_⟩
    · simp only [append_assoc]
    · obtain ⟨first, rest, rfl⟩ := exists_cons_of_ne_nil hne
      refine strip_eq_self_iff.mpr ⟨fun c hc => (strip_eq_self_iff.mp hstrip).1 c hc,
        fun c hc => ?_⟩
      rw [← append_assoc, getLast?_append_of_ne_nil _ hbody] at hc
      exact (strip_eq_self_iff.mp hstripped).2 c hc
    · exact @OnLine.next piece after pieces [] text _ (forall_mem_nil _) hwritten hjoins
        (onLine_lead hlead honline)

theorem split_onLine (hline : OnLine pieces line)
    (hproper : ∀ piece ∈ pieces, Proper piece) : split (strip line) = pieces.map Piece.text := by
  obtain ⟨lead, body, trail, rfl, hlead, htrail, -, hstrip, hbody⟩ :=
    exists_onLine_stripped hline hproper
  rw [strip_append hlead hstrip htrail]
  exact splitFrom_onLine hbody hproper ⟨rfl, rfl, nofun⟩ fun hne => absurd rfl hne

end CodeConverter.Block

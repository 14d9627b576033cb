import CodeConverter.Proofs.Block.Single
import CodeConverter.Proofs.Brace.Comment
import CodeConverter.Proofs.Brace.Limit
import CodeConverter.Proofs.Expression.Ending

/-!
# Lines with at most one brace

In a source with at most one brace on a line, where an opening brace ends its line and a closing one
starts it, a line is visited as one piece. How that piece ends and what it consists of decides which
moves are left to it, whatever the language.
-/

namespace CodeConverter

open Text Pattern List Bool

/-- What may follow the last value of a line. -/
def isEndMark (d : Char) : Bool :=
  d = ';' || isBlank d

/-- Whether a line stops inside a list or a call, apart from blanks and semicolons. -/
def leavesOpen (t : Text) : Bool :=
  endsIn (among "([") (dropEndWhile isEndMark t)

/-- A line without braces that neither stops inside a list or a call nor consists of closing
brackets. -/
def isPlainLine (t : Text) : Bool :=
  t.all (fun d => !isBrace d) && !includes t "/*" && !leavesOpen t && !t.all (among ")];,")

/-- A closing brace with closing punctuation. -/
def isClosingLine : Text → Bool
  | [] => false
  | d :: glue => d = '}' && glue.all Block.isGlue

namespace Brace

variable {c : Conversion} {s : State} {t u : Text}

/-- A line of code whose only brace opens something and ends the line. -/
def isOpeningLine (c : Conversion) (t : Text) : Bool :=
  endsIn (· = '{') t && t.dropLast.all (fun d => !isBrace d) && !includes t "/*" &&
    (lineComment? c t).isNone

/-- A line with at most one brace. -/
def hasOneBrace (c : Conversion) (t : Text) : Bool :=
  t.isEmpty || isPlainLine t || isOpeningLine c t || isClosingLine t

/-- What is visited for a line without braces. -/
structure PlainPiece (c : Conversion) (u : Text) : Prop where
  line : '\n' ∉ u
  last : endsIn (among "([\x7b") u = false
  solid : endsIn isBlank u = false
  literal : Grammar.literalClose.matchStart u = none
  /-- A closing brace stands in a literal. -/
  close : '}' ∈ u → '"' ∈ u
  /-- The literals of PHP get braces for the variables in them. -/
  open_eq : c ≠ .phpToPython → leavesOpen u = false ∧ ∀ d ∈ u, isBrace d = false

/-- What is visited for a line that ends in an opening brace. -/
structure OpeningPiece (c : Conversion) (u : Text) : Prop where
  line : '\n' ∉ u
  last : u.getLast? = some '{'
  head : c ≠ .phpToPython → ∀ d ∈ u.dropLast, isBrace d = false

theorem strip_codeOf (c : Conversion) (line : Text) : strip (codeOf c line) = codeOf c line := by
  have hstrip : ∀ t : Text, strip (strip t) = strip t :=
    fun t => strip_eq_self_iff.mpr (strip_ends t)
  unfold codeOf
  split
  · exact hstrip _
  · exact hstrip _

theorem not_mem_codeOf {line : Text} (h : '\n' ∉ line) : '\n' ∉ codeOf c line := by
  intro hmem
  rcases (drawn_codeOf c line).mem hmem with hin | hblank
  · exact h hin
  · exact absurd hblank (by decide)

theorem not_mem_prepare (h : '\n' ∉ t) : '\n' ∉ prepare c t := by
  intro hmem
  rcases (drawn_prepare c t).mem hmem with hin | hadded
  · exact h hin
  · exact absurd hadded (by decide)

/-- The code of a line has all braces of the line. -/
theorem filter_codeOf (c : Conversion) (line : Text) :
    (codeOf c line).filter isBrace = line.filter isBrace := by
  have hdropped : ∀ (p : Pattern) (u : Text), p.uses '{' = false → p.uses '}' = false →
      (p.replaceWith [] u).filter isBrace = u.filter isBrace := by
    intro p u hopen hclose
    refine replaceBy_rel (compatible_filter_eq isBrace) (fun _ _ => rfl) fun m hm => ?_
    refine (filter_eq_nil_iff.mpr fun d hd => ?_).symm
    have huses := hm.reads.uses hd
    rcases brace_cases d with rfl | rfl | hother
    · rw [hopen] at huses
      cases huses
    · rw [hclose] at huses
      cases huses
    · rw [hother]
      exact false_ne_true
  unfold codeOf
  split
  · rw [filter_strip, withoutTags, hdropped _ _ rfl rfl, hdropped _ _ rfl rfl, filter_strip]
  · exact filter_strip line

end Brace

namespace Expression.ToPython

variable {set : Char → Bool} {t : Text}

theorem sigil_parts {m : Match} (hm : m.Of ("$" ++ group 1 (.char isWord)) t) :
    ∃ d, isWord d = true ∧ m.whole = ['$', d] ∧ m.group 1 = [d] := by
  obtain ⟨a, v, b, hwhole, ha, hb⟩ := reads_seq_iff.mp hm.reads
  obtain ⟨rfl, -⟩ := reads_literal_iff.mp ha
  obtain ⟨u, hbody, hlast⟩ := reads_group_iff.mp hb
  have htext : m.group 1 = b := by
    rw [Match.group, Match.group?, hlast]
    show (v.ahead.take (u.index - v.index)) = b
    rw [hbody.index_eq, Nat.add_sub_cancel_left, hbody.ahead_eq, take_left]
  obtain ⟨d, rest, rfl, hd, -, -⟩ := reads_char_iff.mp hbody
  exact ⟨d, hd, hwhole, htext⟩

/-- A compatible relation that every step of removing the sigils keeps holds between the piece
without sigils and the piece. -/
theorem withoutSigils_rel {R : Text → Text → Prop} (hR : Compatible R) (hrefl : ∀ d, R [d] [d])
    (htrans : ∀ {a b c : Text}, R a b → R b c → R a c)
    (hliteral : ∀ a b, R ("f\"" ++ a ++ "\"") ("\"" ++ b ++ "\""))
    (hthis : R "this." "$this->") (hsigil : ∀ d, isWord d = true → R [d] ['$', d])
    (harrow : R "." "->")
    (hself : ∀ word, '"' ∉ word → R "self." (word ++ "::")) (hcolons : R "." "::") (t : Text) :
    R (withoutSigils t) t := by
  have hliterals := replaceBy_rel (p := interpolatedPhp) (t := t) hR (fun d _ => hrefl d)
    (f := fun m =>
    "f\"" ++ phpField.replaceBy (fun h => "\x7b" ++ h.group 1 ++ "\x7d") (m.group 1) ++ "\"")
      fun m hm => by
      rw [hm.whole_eq, ← append_assoc]
      exact hliteral _ _
  have hsigils : ∀ u, R (("$" ++ group 1 (.char isWord)).replaceBy (·.group 1) u) u := fun u =>
    replaceBy_rel hR (fun d _ => hrefl d) fun m hm => by
      obtain ⟨d, hd, hwhole, hgroup⟩ := sigil_parts hm
      rw [hwhole, hgroup]
      exact hsigil d hd
  have hselves :
      ∀ u, R ((wordEdge ++ keyword ["self", "static", "parent"] ++ "::").replaceWith "self." u) u :=
      fun u =>
    replaceBy_rel hR (fun d _ => hrefl d) fun m hm => by
      obtain ⟨a, v, b, hwhole, ha, hb⟩ := reads_seq_iff.mp hm.reads
      obtain ⟨rfl, -⟩ := reads_literal_iff.mp hb
      rw [hwhole]
      exact hself a fun hmem => absurd (ha.uses hmem) (by decide)
  have hreplace : ∀ {old new : Text}, old ≠ [] → R new old → ∀ u, R (replace old new u) u :=
    fun hne h u =>
    replace_rel hR hne (fun d _ => hrefl d) h
  refine htrans (hreplace (by decide) hcolons _)
    (htrans (hselves _) (htrans (hreplace (by decide) harrow _) ?_))
  exact htrans (hsigils _) (htrans (hreplace (by decide) hthis _) hliterals)

theorem endsAlike_withoutSigils (harrow : set '>' = true → set '.' = true)
    (hcolon : set ':' = true → set '.' = true) (t : Text) : EndsAlike set (withoutSigils t) t := by
  refine withoutSigils_rel (compatible_endsAlike set) (fun _ => .rfl) .trans (fun a b => ?_)
    ⟨fun hnil => absurd hnil (by decide), harrow⟩ (fun d _ =>
    ⟨fun hnil => (by cases hnil), fun h => h⟩)
    ⟨fun hnil => absurd hnil (by decide), harrow⟩ (fun word _ => ?_) ⟨fun hnil =>
    absurd hnil (by decide), hcolon⟩ t
  · refine ⟨fun hnil => by simp at hnil, fun h => ?_⟩
    rw [endsIn_append (by decide)] at h ⊢
    exact h
  · refine ⟨fun hnil => by simp at hnil, fun h => ?_⟩
    rw [endsIn_append (by decide)] at h
    exact hcolon h

/-- A class of characters that has a member in a text has one in the text without sigils, if it has
the letters of the words and the point that are written for sigils. -/
theorem any_withoutSigils (hword : ∀ d, isWord d = true → set d = true) (hpoint : set '.' = true)
    (h : t.any set = true) : (withoutSigils t).any set = true := by
  have hfixed : ∀ {out u : Text}, out.any set = true → (u.any set = true → out.any set = true) :=
    fun h _ => h
  refine withoutSigils_rel (R := fun out t => t.any set = true → out.any set = true) ⟨fun h => h,
    ?_⟩ (fun _ h => h)
    (fun h h' ht => h (h' ht)) (fun a b => hfixed ?_) (hfixed ?_) (fun d hd => hfixed ?_)
    (hfixed ?_) (fun word _ => hfixed ?_) (hfixed ?_) t h
  · intro a b c d hab hcd hany
    rw [any_append, or_eq_true] at hany ⊢
    exact hany.imp hab hcd
  · exact any_eq_true.mpr ⟨'f', by simp, hword 'f' rfl⟩
  · exact any_eq_true.mpr ⟨'.', by simp, hpoint⟩
  · exact any_eq_true.mpr ⟨d, by simp, hword d hd⟩
  · exact any_eq_true.mpr ⟨'.', by simp, hpoint⟩
  · exact any_eq_true.mpr ⟨'.', by simp, hpoint⟩
  · exact any_eq_true.mpr ⟨'.', by simp, hpoint⟩

theorem mem_withoutSigils (h : '}' ∈ withoutSigils t) : '}' ∈ t ∨ '"' ∈ withoutSigils t := by
  refine (withoutSigils_rel (R := fun out t => ('}' ∈ out → '}' ∈ t ∨ '"' ∈ out) ∧
    ('"' ∈ t → '"' ∈ out))
    ⟨⟨fun h => .inl h, fun h => h⟩, ?_⟩ (fun _ => ⟨fun h => .inl h, fun h => h⟩) ?_ (fun a b => ?_)
    ?_ (fun d hd => ?_) ?_ (fun word hword => ?_) ?_ t).1 h
  · rintro a b c d ⟨hab, hab'⟩ ⟨hcd, hcd'⟩
    simp only [mem_append]
    grind
  · rintro a b c ⟨hab, hab'⟩ ⟨hbc, hbc'⟩
    grind
  · exact ⟨fun _ => .inr (by simp), fun _ => by simp⟩
  · exact ⟨fun h => absurd h (by decide), fun h => absurd h (by decide)⟩
  · refine ⟨fun h => .inl (mem_cons_of_mem _ h), fun h => ?_⟩
    rcases mem_cons.mp h with hd | h
    · cases hd
    · exact h
  · exact ⟨fun h => absurd h (by decide), fun h => absurd h (by decide)⟩
  · refine ⟨fun h => absurd h (by decide), fun h => ?_⟩
    rcases mem_append.mp h with h | h
    · exact absurd h hword
    · exact absurd h (by decide)
  · exact ⟨fun h => absurd h (by decide), fun h => absurd h (by decide)⟩

end Expression.ToPython

namespace Brace

variable {c : Conversion} {s : State} {t u head : Text}

theorem literalClose_eq_none (hline : '\n' ∉ u)
    (h : u.any (fun d => !Grammar.literalClose.uses d) = true) :
    Grammar.literalClose.matchStart u = none := by
  refine Option.eq_none_iff_forall_ne_some.mpr fun m hm => ?_
  obtain ⟨d, hd, hother⟩ := any_eq_true.mp h
  rw [← (whole_eq_of_anchored hm rfl hline).1] at hd
  rw [(of_matchStart hm).1.reads.uses hd] at hother
  cases hother

theorem closeBrace_eq_none (hline : '\n' ∉ u) (h : '}' ∈ u → '"' ∈ u) :
    Grammar.closeBraceForm.pattern.matchStart u = none := by
  refine Option.eq_none_iff_forall_ne_some.mpr fun m hm => ?_
  have hwhole := (whole_eq_of_anchored hm rfl hline).1
  have hreads := (of_matchStart hm).1.reads
  have hneeds : Grammar.closeBraceForm.pattern.needs (· = '}') = true := by decide
  obtain ⟨d, hd, hclose⟩ := hreads.needs hneeds
  obtain rfl : d = '}' := by simpa using hclose
  rw [hwhole] at hd
  rw [hwhole] at hreads
  exact absurd (hreads.uses (h hd)) (by decide)

theorem uses_literalClose {d : Char} (h : Grammar.literalClose.uses d = true) :
    d = '}' ∨ d = ')' ∨ d = ']' ∨ d = ';' ∨ d = ',' := by
  have huses : Grammar.literalClose.uses d = (among "\x7d])" d || among ")];," d) := by
    simp [Grammar.literalClose, HAppend.hAppend, Append.append, Pattern.uses, many]
  rw [huses, or_eq_true] at h
  simp only [among, contains_iff_mem] at h
  rcases h with hmem | hmem
  · have hmem : d = '}' ∨ d = ']' ∨ d = ')' := by simpa using hmem
    grind
  · have hmem : d = ')' ∨ d = ']' ∨ d = ';' ∨ d = ',' := by simpa using hmem
    grind

section

variable (h : isPlainLine t = true)

include h

theorem isPlainLine_parts :
    (∀ d ∈ t, isBrace d = false) ∧ includes t "/*" = false ∧ leavesOpen t = false ∧
      t.any (fun d => !Grammar.literalClose.uses d) = true := by
  simp only [isPlainLine, and_eq_true, not_eq_true'] at h
  obtain ⟨⟨⟨hbrace, hcomment⟩, hopen⟩, hclosers⟩ := h
  have hplain : ∀ d ∈ t, isBrace d = false := fun d hd => by simpa using all_eq_true.mp hbrace d hd
  refine ⟨hplain, hcomment, hopen, ?_⟩
  obtain ⟨d, hd, hother⟩ : ∃ d ∈ t, among ")];," d = false := by simpa using hclosers
  refine any_eq_true.mpr ⟨d, hd, ?_⟩
  -- The only other closing bracket is a brace.
  rw [not_eq_true', ← not_eq_true]
  intro huses
  rcases uses_literalClose huses with rfl | rfl | rfl | rfl | rfl
  · cases hplain _ hd
  all_goals cases hother

theorem endsIn_of_plain : endsIn (among "([\x7b") t = false := by
  obtain ⟨hplain, -, hopen, -⟩ := isPlainLine_parts h
  cases hlast : t.getLast? with
  | none =>
    rw [endsIn, hlast]
    rfl
  | some d =>
    rw [← not_eq_true, endsIn, hlast]
    intro hmem
    have hkept : ∀ {x : Char}, t.getLast? = some x → isEndMark x = false → among "([" x = true →
        False := by
      intro x hx hother hbracket
      rw [leavesOpen, dropEndWhile_of_last hx hother, endsIn, hx, Option.any_some,
        hbracket] at hopen
      cases hopen
    have hopening : d = '(' ∨ d = '[' ∨ d = '{' := by simpa [among] using hmem
    rcases hopening with rfl | rfl | rfl
    · exact hkept hlast rfl rfl
    · exact hkept hlast rfl rfl
    · cases hplain _ (mem_of_getLast? hlast)

/-- What is visited for a plain line. -/
theorem plainPiece (hstrip : strip t = t) (hline : '\n' ∉ t) : PlainPiece c (prepare c t) := by
  have hlast := endsIn_of_plain h
  have hend : endsIn isBlank t = false := by
    rw [endsIn, Option.any_eq_false]
    exact fun d hd => by simpa using (strip_eq_self_iff.mp hstrip).2 d hd
  obtain ⟨hplain, -, hopen, hsolid⟩ := isPlainLine_parts h
  have hclose : '}' ∉ t := fun hmem => by cases hplain _ hmem
  have hlineOf : '\n' ∉ prepare c t := not_mem_prepare hline
  by_cases hphp : c = .phpToPython
  · have hprepare : prepare c t = Expression.ToPython.withoutSigils t := if_pos hphp
    rw [hprepare] at hlineOf ⊢
    refine ⟨hlineOf, ?_, ?_, literalClose_eq_none hlineOf ?_, ?_, fun hne => absurd hphp hne⟩
    · have hends : EndsAlike (fun d => !among "([\x7b" d) (Expression.ToPython.withoutSigils t) t :=
        Expression.ToPython.endsAlike_withoutSigils (by decide) (by decide) t
      exact hends.endsIn_eq_false hlast
    · have hends : EndsAlike (fun d => !isBlank d) (Expression.ToPython.withoutSigils t) t :=
        Expression.ToPython.endsAlike_withoutSigils (by decide) (by decide) t
      exact hends.endsIn_eq_false hend
    · refine Expression.ToPython.any_withoutSigils (fun d hd => ?_) rfl hsolid
      rw [not_eq_true', ← not_eq_true]
      intro huses
      rcases uses_literalClose huses with rfl | rfl | rfl | rfl | rfl
      all_goals exact absurd hd (by decide)
    · intro hmem
      exact (Expression.ToPython.mem_withoutSigils hmem).resolve_left hclose
  · have hprepare : prepare c t = t := if_neg hphp
    rw [hprepare]
    exact ⟨hline, hlast, hend, literalClose_eq_none hline hsolid, fun hmem => absurd hmem hclose,
      fun _ => ⟨hopen, hplain⟩⟩

end

theorem isOpeningLine_parts (h : isOpeningLine c t = true) :
    ∃ head, t = head ++ ['{'] ∧ (∀ d ∈ head, isBrace d = false) ∧ includes t "/*" = false ∧
    lineComment? c t = none := by
  simp only [isOpeningLine, and_eq_true, not_eq_true', Option.isNone_iff_eq_none] at h
  obtain ⟨⟨⟨hlast, hhead⟩, hcomment⟩, hmark⟩ := h
  obtain ⟨head, d, rfl⟩ := (eq_nil_or_concat' t).resolve_left (ne_nil_of_endsIn hlast)
  obtain rfl : d = '{' := by simpa [endsIn_concat] using hlast
  refine ⟨head, rfl, fun d hd => ?_, hcomment, hmark⟩
  rw [dropLast_concat] at hhead
  simpa using all_eq_true.mp hhead d hd

theorem openingPiece_prepare (hhead : ∀ d ∈ head, isBrace d = false) (hline : '\n' ∉ head) :
    OpeningPiece c (prepare c (head ++ ['{'])) := by
  have hlineOf : '\n' ∉ prepare c (head ++ ['{']) := not_mem_prepare (by simp [hline])
  by_cases hphp : c = .phpToPython
  · have hprepare : prepare c (head ++ ['{']) = Expression.ToPython.withoutSigils (head ++ ['{']) :=
      if_pos hphp
    rw [hprepare] at hlineOf ⊢
    refine ⟨hlineOf, ?_, fun hne => absurd hphp hne⟩
    have hends : EndsAlike (fun d => d = '{') (Expression.ToPython.withoutSigils (head ++ ['{']))
        (head ++ ['{']) :=
      Expression.ToPython.endsAlike_withoutSigils (by decide) (by decide) _
    have hlast := hends.last (endsIn_concat _ _ _)
    obtain ⟨front, d, hfront⟩ := (eq_nil_or_concat' _).resolve_left (ne_nil_of_endsIn hlast)
    rw [hfront, endsIn_concat, decide_eq_true_eq] at hlast
    rw [hfront, hlast, getLast?_concat]
  · have hprepare : prepare c (head ++ ['{']) = head ++ ['{'] := if_neg hphp
    rw [hprepare] at hlineOf ⊢
    refine ⟨hlineOf, getLast?_concat, fun _ d hd => ?_⟩
    rw [dropLast_concat] at hd
    exact hhead d hd

/-- A line that opens a scope is one piece that opens one. -/
theorem split_of_isOpeningLine (h : isOpeningLine c t = true) (hstrip : strip t = t)
    (hline : '\n' ∉ t) : ∃ u, Block.split t = [u] ∧ OpeningPiece c (prepare c u) := by
  obtain ⟨head, rfl, hhead, -, -⟩ := isOpeningLine_parts h
  have hlineOf : '\n' ∉ head := fun hmem => hline (mem_append_left _ hmem)
  rcases Block.split_of_opening hstrip hhead with hsplit | ⟨-, hsplit⟩
  · exact ⟨_, hsplit, openingPiece_prepare hhead hlineOf⟩
  · refine ⟨_, hsplit, ?_⟩
    have hspaced : strip head ++ " \x7b" = strip head ++ [' '] ++ ['{'] := by simp
    have hin : ∀ d ∈ strip head, d ∈ head := fun d hd => (strip_isInfix head).subset hd
    rw [hspaced]
    refine openingPiece_prepare (fun d hd => ?_) fun hmem => ?_
    · rcases mem_append.mp hd with hd | hd
      · exact hhead d (hin d hd)
      · obtain rfl := mem_singleton.mp hd
        rfl
    · rcases mem_append.mp hmem with hmem | hmem
      · exact hlineOf (hin _ hmem)
      · exact absurd (mem_singleton.mp hmem) (by decide)

theorem isClosingLine_parts (h : isClosingLine t = true) :
    ∃ glue : Text, t = '}' :: glue ∧ glue.all Block.isGlue = true ∧ ∀ d ∈ t,
    d ∈ "\x7d);,".toList := by
  cases t with
  | nil => cases h
  | cons d glue =>
    rw [isClosingLine, and_eq_true, decide_eq_true_eq] at h
    obtain ⟨rfl, hglue⟩ := h
    refine ⟨glue, rfl, hglue, forall_mem_cons.mpr ⟨by decide, ?_⟩⟩
    exact Block.forall_glue (by decide) hglue

theorem prepare_of_isClosingLine (h : isClosingLine t = true) : prepare c t = t := by
  obtain ⟨-, -, -, hmarks⟩ := isClosingLine_parts h
  have hother : ∀ {d : Char}, d ∉ "\x7d);,".toList → d ∉ t := fun hd hmem => hd (hmarks _ hmem)
  have hclear : ∀ d : Char, d ∉ "\x7d);,".toList → ∀ e ∈ t, decide (e = d) = false := by
    intro d hd e he
    rw [decide_eq_false_iff_not]
    rintro rfl
    exact hother hd he
  by_cases hphp : c = .phpToPython
  · -- Every step looks for a character that the line does not have.
    have hdollar := hclear '$' (by decide)
    have hcolon := hclear ':' (by decide)
    have hquote := hclear '"' (by decide)
    rw [prepare, if_pos hphp, Expression.ToPython.withoutSigils, replaceBy_eq_self rfl hquote,
      replace_eq_self (d := '$') (by decide) (hother (by decide)),
      replaceBy_eq_self (by decide) hdollar,
      replace_eq_self (d := '-') (by decide) (hother (by decide)), replaceWith,
      replaceBy_eq_self (by decide) hcolon,
      replace_eq_self (d := ':') (by decide) (hother (by decide))]
  · exact if_neg hphp

end Brace

end CodeConverter

import CodeConverter.Proofs.Meets
import CodeConverter.Proofs.Pattern.Shape

/-!
# Matches found in a text

`Match.Of p t m` says that `m` is a place of the text `t` where the pattern `p` was found. The
segments of a text give it back, so a relation between texts that is compatible with writing one
text after another holds between a text and the text with its matches replaced as soon as it holds
between each match and its replacement (`replaceBy_rel`). A line is shown to have no match by the
character that it ends in, or by one that the pattern needs and the line does not have.
-/

namespace CodeConverter

open List Pattern Match

variable {s : State} {t piece rest fuel : Text} {c d : Char} {k : Nat} {next : State → List Segment}
  {R : Text → Text → Prop} {p : Pattern} {subject : Text} {m : Match} {old : Text} {body : Pattern}
  {close : Text} {l : List Segment}

namespace Pattern

/-- The place lies in the text. -/
def State.Within (s : State) (subject : Text) : Prop :=
  ∃ passed, subject = passed ++ s.ahead ∧ s.index = passed.length ∧ s.before = passed.getLast?

theorem State.start_within (t : Text) : (State.start t).Within t :=
  ⟨[], rfl, rfl, rfl⟩

theorem Reads.within {t : State} (h : Reads p s piece t)
    (hs : s.Within subject) : t.Within subject := by
  obtain ⟨passed, hsubject, hindex, hbefore⟩ := hs
  refine ⟨passed ++ piece, ?_, ?_, ?_⟩
  · rw [hsubject, h.ahead_eq, append_assoc]
  · rw [h.index_eq, hindex, length_append]
  · rw [h.before_eq, hbefore, getLast?_append]

theorem State.Within.advance (hs : s.Within subject)
    (hahead : s.ahead = c :: rest) : (s.advance c rest).Within subject := by
  obtain ⟨passed, hsubject, hindex, -⟩ := hs
  refine ⟨passed ++ [c], ?_, ?_, ?_⟩
  · rw [hsubject, hahead, append_assoc]
    rfl
  · rw [length_append, ← hindex]
    rfl
  · simp [State.advance]

theorem State.Within.forget (hs : s.Within subject)
    (captures : List (Nat × Capture)) : ({ s with captures } : State).Within subject := hs

end Pattern

/-- The match is a place of the text where the pattern was found. -/
structure Match.Of (p : Pattern) (subject : Text) (m : Match) : Prop where
  subject_eq : m.subject = subject
  within : m.first.Within subject
  reads : Reads p { m.first with captures := [] } m.whole m.last

namespace Match.Of

variable {p : Pattern} {subject : Text} {m : Match}

section

variable (h : m.Of p subject)

include h

theorem ahead_eq : m.first.ahead = m.whole ++ m.last.ahead := h.reads.ahead_eq

theorem index_eq : m.last.index = m.first.index + m.whole.length := h.reads.index_eq

theorem last_within : m.last.Within subject := h.reads.within (h.within.forget [])

theorem exists_parts :
    ∃ passed, subject = passed ++ (m.whole ++ m.last.ahead) ∧ m.first.index = passed.length ∧
      m.stop = passed.length + m.whole.length := by
  obtain ⟨passed, hsubject, hindex, -⟩ := h.within
  exact ⟨passed, by rw [hsubject, h.ahead_eq], hindex, by rw [stop, h.index_eq, hindex]⟩

theorem whole_isInfix : m.whole <:+: subject := by
  obtain ⟨passed, hsubject, -⟩ := h.exists_parts
  exact ⟨passed, m.last.ahead, by rw [hsubject, append_assoc]⟩

theorem group?_eq (k : Nat) : m.group? k = none ∨ ∃ before inner after, m.group? k = some inner ∧
      m.whole = before ++ (inner ++ after) ∧ p.Framed k inner after ∧
      m.groupStart k = m.first.index + before.length := by
  rcases h.reads.remembered k with hnone | ⟨before, inner, after, tail, hwhole, hframe, hlookup⟩
  · refine .inl ?_
    have hempty : m.last.captures.lookup k = none := hnone
    rw [group?, hempty, Option.map_none]
  · refine .inr ⟨before, inner, after, ?_, hwhole, hframe, ?_⟩
    · rw [group?, hlookup, Option.map_some, Capture.text, take_left]
    · rw [groupStart, hlookup]
      rfl

theorem group_isInfix (k : Nat) : m.group k <:+: m.whole := by
  rcases h.group?_eq k with hnone | ⟨before, inner, after, hsome, hwhole, -⟩
  · rw [group, hnone]
    exact nil_infix
  · rw [group, hsome, hwhole]
    exact ⟨before, after, by simp⟩

end

/-- A match of a group between two texts. -/
theorem enclosed {start : Pattern}
    (h : m.Of (.seq (.seq start (.group k body)) (.literal close)) subject) :
    ∃ a s u, Reads start { m.first with captures := [] } a s ∧
      Reads body s (m.group k) u ∧ m.whole = a ++ (m.group k ++ close) ∧
      m.group? k = some (m.group k) ∧ m.last.captures = (u.remember k s).captures := by
  have hreads := h.reads
  simp only [reads_seq_iff, reads_group_iff, reads_literal_iff] at hreads
  obtain ⟨ab, v, close', hwhole, ⟨a, s, b, rfl, hstart, u, hbody, rfl⟩, rfl, rest, -, hlast⟩ :=
    hreads
  have hlookup : m.last.captures.lookup k = some ⟨s.index, s.ahead, u.index - s.index⟩ := by
    rw [hlast]
    simp [State.past, State.remember]
  have hsome : m.group? k = some b := by
    rw [group?, hlookup, Option.map_some, Capture.text, hbody.index_eq,
      Nat.add_sub_cancel_left, hbody.ahead_eq, take_left]
  have hgroup : m.group k = b := by rw [group, hsome, Option.getD_some]
  refine ⟨a, s, u, hstart, by rwa [hgroup], by rw [hgroup, hwhole, append_assoc], by
    rw [hgroup, hsome], ?_⟩
  rw [hlast]
  rfl

theorem whole_eq {start : Text}
    (h : m.Of (.seq (.seq (.literal start) (.group k body)) (.literal close)) subject) :
    m.whole = start ++ (m.group k ++ close) := by
  obtain ⟨a, s, u, hstart, -, hwhole, -, -⟩ := h.enclosed
  rw [hwhole, (reads_literal_iff.mp hstart).1]

theorem inside (h : m.Of p subject) (hd : d ∈ m.group k) : p.inside k d = true := by
  rcases h.group?_eq k with hnone | ⟨before, inner, after, hsome, -, hframe, -⟩
  · rw [group, hnone] at hd
    cases hd
  · rw [group, hsome] at hd
    exact hframe.inside d hd

end Match.Of

namespace Pattern

theorem Outlook.always_covers (next : State → Option State) : Outlook.always.get.Covers next :=
  Outlook.any_covers next

theorem matchAt_eq (p : Pattern) (subject : Text) (s : State) : p.matchAt subject s =
      (p.outcomes { s with captures := [] }).head?.map fun last => ⟨subject, s, last⟩ := by
  rw [matchAt, run_eq_findSome? p (Outlook.always_covers _)]
  cases p.outcomes { s with captures := [] } <;> rfl

theorem matchAt_eq_none (h : ∀ piece u, ¬ Reads p { s with captures := [] } piece u) :
    p.matchAt subject s = none := by
  rw [matchAt_eq, Option.map_eq_none_iff, head?_eq_none_iff, eq_nil_iff_forall_not_mem]
  intro u hu
  obtain ⟨piece, hreads⟩ := reads_of_mem_outcomes hu
  exact h piece u hreads

theorem of_mem_outcomes {last : State}
    (h : last ∈ p.outcomes { s with captures := [] }) (hs : s.Within subject) :
    Of p subject ⟨subject, s, last⟩ := by
  obtain ⟨piece, hreads⟩ := reads_of_mem_outcomes h
  have hahead : s.ahead = piece ++ last.ahead := hreads.ahead_eq
  have hindex : last.index = s.index + piece.length := hreads.index_eq
  have hwhole : whole ⟨subject, s, last⟩ = piece := by
    simp only [whole]
    rw [hindex, Nat.add_sub_cancel_left, hahead, take_left]
  exact ⟨rfl, hs, by rw [hwhole]; exact hreads⟩

theorem of_matchAt
    (h : p.matchAt subject s = some m) (hs : s.Within subject) : m.Of p subject ∧ m.first = s := by
  rw [matchAt_eq] at h
  obtain ⟨last, hlast, rfl⟩ := Option.map_eq_some_iff.mp h
  exact ⟨of_mem_outcomes (mem_of_mem_head? hlast) hs, rfl⟩

theorem of_matchNonemptyAt
    (h : p.matchNonemptyAt subject s = some m) (hs : s.Within subject) :
    m.Of p subject ∧ m.first = s ∧ s.index < m.last.index := by
  rw [matchNonemptyAt, run_eq_findSome? p (Outlook.always_covers _)] at h
  obtain ⟨last, hlast, rfl⟩ := Option.map_eq_some_iff.mp h
  obtain ⟨t, hmem, ht⟩ := exists_of_findSome?_eq_some hlast
  split at ht
  · rename_i hmoved
    obtain rfl : t = last := by simpa using ht
    exact ⟨of_mem_outcomes hmem hs, rfl, hmoved⟩
  · cases ht

theorem isSome_matchAt_of_reads {t : State}
    (h : Reads p { s with captures := [] } piece t) : (p.matchAt subject s).isSome = true := by
  rw [matchAt_eq, Option.isSome_map]
  cases hlist : p.outcomes { s with captures := [] } with
  | nil => exact absurd h.mem_outcomes (by simp [hlist])
  | cons _ _ => rfl

section

variable (h : p.matchStart t = some m)

include h

theorem of_matchStart : m.Of p t ∧ m.first = State.start t :=
  of_matchAt h (State.start_within t)

theorem whole_append_drop_stop : m.whole ++ t.drop m.stop = t := by
  obtain ⟨hof, hfirst⟩ := of_matchStart h
  have hahead := hof.ahead_eq
  have hstop : m.stop = m.first.index + m.whole.length := hof.reads.index_eq
  rw [hfirst] at hahead hstop
  have htext : t = m.whole ++ m.last.ahead := hahead
  have hlength : m.stop = m.whole.length := hstop.trans (Nat.zero_add _)
  rw [hlength]
  conv => lhs; rw [htext, drop_left]
  exact htext.symm

theorem whole_eq_of_anchored
    (hp : p.anchored = true) (hline : '\n' ∉ t) : m.whole = t ∧ m.last.ahead = [] := by
  obtain ⟨hof, hfirst⟩ := of_matchStart h
  have hahead := hof.ahead_eq
  have htext : t = m.whole ++ m.last.ahead := by rwa [hfirst] at hahead
  have hend : m.last.isEnd = true := hof.reads.isEnd hp
  simp only [State.isEnd, Bool.or_eq_true, decide_eq_true_eq] at hend
  rcases hend with hnil | hfeed
  · exact ⟨by rw [htext, hnil, append_nil], hnil⟩
  · exact absurd (by rw [htext, hfeed]; simp) hline

end

theorem of_searchFrom {subject text : Text}
    (h : p.searchFrom subject text s = some m) (hahead : s.ahead = text) (hs : s.Within subject) :
    m.Of p subject := by
  induction text generalizing s with
  | nil => exact (of_matchAt h hs).1
  | cons c rest ih =>
    simp only [searchFrom] at h
    split at h
    · rename_i found hfound
      obtain rfl : found = m := by simpa using h
      exact (of_matchAt hfound hs).1
    · exact ih h rfl (hs.advance hahead)

theorem of_search (h : p.search t = some m) : m.Of p t :=
  of_searchFrom h rfl (State.start_within t)

theorem isSome_searchFrom {a b : Text} (hahead : s.ahead = a ++ b)
    (hm : (p.matchAt subject (s.past a b)).isSome = true) :
    (p.searchFrom subject s.ahead s).isSome = true := by
  induction a generalizing s with
  | nil =>
    have hplace : s.past [] b = s := State.past_nil_of_ahead hahead
    rw [hplace] at hm
    cases hhere : p.matchAt subject s with
    | none =>
      rw [hhere] at hm
      cases hm
    | some m => cases hs : s.ahead <;> simp [searchFrom, hhere]
  | cons c a ih =>
    rw [hahead, cons_append, searchFrom]
    cases p.matchAt subject s with
    | some m => rfl
    | none =>
      refine ih (s := s.advance c (a ++ b)) rfl ?_
      rw [State.advance_eq_past, State.past_past]
      exact hm

theorem occursIn_of_reads {passed : Text} {u : State}
    (h : Reads p ((State.start (passed ++ rest)).past passed rest) piece u) :
    p.occursIn (passed ++ rest) = true :=
  isSome_searchFrom rfl (isSome_matchAt_of_reads h)

end Pattern

/-- The characters of a segment. -/
def Segment.text : Segment → Text
  | .plain c => [c]
  | .found m => m.whole

/-- A segment of a text cut by a pattern: a character of the text or a match. -/
def Segment.Of (p : Pattern) (subject : Text) : Segment → Prop
  | .plain c => c ∈ subject
  | .found m => m.Of p subject

namespace Pattern

theorem segmentsFrom_of_match
    (hm : p.matchAt subject s = some m) (hmoved : s.index < m.last.index) :
    p.segmentsFrom subject (d :: fuel) s = .found m :: p.segmentsFrom subject fuel m.last := by
  simp only [segmentsFrom, hm]
  exact if_pos hmoved

theorem segmentsFrom_of_none
    (hm : p.matchAt subject s = none) (hahead : s.ahead = c :: rest) :
    p.segmentsFrom subject (d :: fuel) s =
      .plain c :: p.segmentsFrom subject fuel (s.advance c rest) := by
  simp only [segmentsFrom, hm, passOver, hahead]

theorem segmentsFrom_at_end (hm : p.matchAt subject s = none) (hahead : s.ahead = []) :
    p.segmentsFrom subject fuel s = [] := by
  cases fuel <;> simp only [segmentsFrom, hm, passOver, hahead]

theorem segmentsFrom_skip {subject skip : Text}
    (hahead : s.ahead = skip ++ rest) (hfuel : skip.length ≤ fuel.length)
    (hnone : ∀ a b, skip = a ++ b → b ≠ [] → p.matchAt subject (s.past a (b ++ rest)) = none) :
    p.segmentsFrom subject fuel s =
      skip.map .plain ++ p.segmentsFrom subject (fuel.drop skip.length) (s.past skip rest) := by
  induction skip generalizing s fuel with
  | nil =>
    rw [State.past_nil_of_ahead (by simpa using hahead)]
    rfl
  | cons c skip ih =>
    cases fuel with
    | nil => simp at hfuel
    | cons d fuel =>
      have hhere := hnone [] (c :: skip) rfl (by simp)
      rw [State.past_nil_of_ahead hahead] at hhere
      have hlater := @ih (s.past [c] (skip ++ rest)) fuel rfl (by simpa using hfuel)
        fun a b hab hb => by
          rw [State.past_past]
          exact hnone (c :: a) b (by rw [hab, cons_append]) hb
      rw [State.past_past] at hlater
      rw [segmentsFrom_of_none hhere (by rw [hahead, cons_append]), State.advance_eq_past, hlater]
      rfl

/-- A place in a text with the text passed before it, its last character first. -/
structure Passed (t old : Text) (s : State) : Prop where
  within : s.Within t
  text : t = old.reverse ++ s.ahead

namespace Passed

variable {p : Pattern} {old : Text}

theorem start (t : Text) : Passed t [] (State.start t) := ⟨State.start_within t, rfl⟩

theorem before (h : Passed t old s) : s.before = old.head? := by
  obtain ⟨passed, htext, -, hbefore⟩ := h.within
  have hpassed : passed = old.reverse := append_cancel_right (htext.symm.trans h.text)
  rw [hbefore, hpassed, getLast?_reverse]

theorem advance (h : Passed t old s) (hahead : s.ahead = c :: rest) :
    Passed t (c :: old) (s.advance c rest) := by
  refine ⟨h.within.advance hahead, ?_⟩
  rw [h.text, hahead, reverse_cons, append_assoc]
  rfl

theorem past (h : Passed t old m.first) (hof : m.Of p t) :
    Passed t (m.whole.reverse ++ old) m.last := by
  refine ⟨hof.last_within, ?_⟩
  rw [reverse_append, reverse_reverse, append_assoc, ← hof.ahead_eq]
  exact h.text

end Passed

/-- How a pattern cuts a text, given what was passed of it and what is ahead: into characters and
matches that follow one another. -/
inductive Cuts (p : Pattern) (t : Text) : Text → Text → List Segment → Prop
  | done (old : Text) : Cuts p t old [] []
  | plain {c : Char} {old rest : Text} {l : List Segment} : c ∈ t → Cuts p t (c :: old) rest l →
      Cuts p t old (c :: rest) (.plain c :: l)
  | found {m : Match} {old ahead : Text} {l : List Segment} : m.Of p t → m.first.ahead = ahead →
      m.first.before = old.head? → Cuts p t (m.whole.reverse ++ old) m.last.ahead l →
      Cuts p t old ahead (.found m :: l)

/-- The segments cut the text into matches and characters where none starts. -/
theorem cuts_segmentsFrom (hs : Passed t old s) (hfuel : s.ahead.length ≤ fuel.length) :
    Cuts p t old s.ahead (p.segmentsFrom t fuel s) := by
  induction fuel generalizing s old with
  | nil =>
    have hnil : s.ahead = [] := length_eq_zero_iff.mp (by simpa using hfuel)
    simp only [segmentsFrom]
    split
    · rename_i m hm
      obtain ⟨hof, rfl⟩ := of_matchAt hm hs.within
      refine .found hof rfl hs.before ?_
      rw [(append_eq_nil_iff.mp (hof.ahead_eq.symm.trans hnil)).2]
      exact .done _
    · rw [hnil]
      exact .done _
  | cons _ fuel ih =>
    have hpass : Cuts p t old s.ahead (passOver s (p.segmentsFrom t fuel)) := by
      simp only [passOver]
      split
      · rename_i hnil
        rw [hnil]
        exact .done _
      · rename_i c rest hahead
        have hc : c ∈ t := by
          rw [hs.text, hahead]
          simp
        rw [hahead] at hfuel ⊢
        exact .plain hc (ih (hs.advance hahead) (by simpa [State.advance] using hfuel))
    -- A match that moves on leaves less text than the rest of the fuel.
    have hmoves : ∀ m : Match, m.Of p t → m.first = s → s.index < m.last.index →
        Cuts p t old s.ahead (.found m :: p.segmentsFrom t fuel m.last) := by
      rintro m hof rfl hmoved
      have hlength := congrArg length hof.ahead_eq
      rw [hof.index_eq] at hmoved
      simp only [length_append, length_cons] at hlength hfuel
      exact .found hof rfl hs.before (ih (hs.past hof) (by omega))
    simp only [segmentsFrom]
    split
    · exact hpass
    · rename_i m hm
      obtain ⟨hof, rfl⟩ := of_matchAt hm hs.within
      split
      · exact hmoves m hof rfl ‹_›
      · rename_i hstuck
        rw [hof.index_eq] at hstuck
        have hempty : m.whole = [] := length_eq_zero_iff.mp (by omega)
        have hsame := hof.ahead_eq
        rw [hempty, nil_append] at hsame
        refine .found hof rfl hs.before ?_
        rw [hempty, ← hsame]
        split
        · rename_i m' hm'
          obtain ⟨hof', hfirst', hmoved⟩ := of_matchNonemptyAt hm' hs.within
          exact hmoves m' hof' hfirst' hmoved
        · exact hpass

theorem cuts_segments (p : Pattern) (t : Text) : Cuts p t [] t (p.segments t) :=
  cuts_segmentsFrom (.start t) (Nat.le_refl _)

theorem Cuts.of (h : Cuts p t old rest l) : ∀ x ∈ l, x.Of p t := by
  induction h with
  | done => exact forall_mem_nil _
  | plain hc _ ih => exact forall_mem_cons.mpr ⟨hc, ih⟩
  | found hof _ _ _ ih => exact forall_mem_cons.mpr ⟨hof, ih⟩

theorem segments_of : ∀ x ∈ p.segments t, x.Of p t :=
  (cuts_segments p t).of

theorem Cuts.text_eq (h : Cuts p t old rest l) : l.flatMap Segment.text = rest := by
  induction h with
  | done => rfl
  | plain _ _ ih =>
    rw [flatMap_cons, ih]
    rfl
  | found hof hahead _ _ ih =>
    rw [flatMap_cons, ih, ← hahead]
    exact hof.ahead_eq.symm

/-- The segments give back the text. -/
theorem flatMap_segments (p : Pattern) (t : Text) : (p.segments t).flatMap Segment.text = t :=
  (cuts_segments p t).text_eq

/-- What becomes of a segment when matches are replaced. -/
def replaced (g : Match → Text) : Segment → Text
  | .plain c => [c]
  | .found m => g m

/-- A relation between texts that is compatible with writing one text after another. -/
structure Compatible (R : Text → Text → Prop) : Prop where
  nil : R [] []
  append : ∀ {a b c d : Text}, R a b → R c d → R (a ++ c) (b ++ d)

theorem Compatible.self (hR : Compatible R) (hrefl : ∀ c, R [c] [c]) (t : Text) : R t t := by
  induction t with
  | nil => exact hR.nil
  | cons c t ih => exact hR.append (hrefl c) ih

/-- Replacing matches keeps a compatible relation that holds for characters of the text and between
matches and their replacements. -/
theorem replaceBy_rel (hR : Compatible R) {f : Match → Text} (hplain : ∀ c ∈ t, R [c] [c])
    (hfound : ∀ m, m.Of p t → R (f m) m.whole) : R (p.replaceBy f t) t := by
  have hall : ∀ l : List Segment, (∀ x ∈ l, x.Of p t) →
      R (l.flatMap fun | .plain c => [c] | .found m => f m) (l.flatMap Segment.text) := by
    intro l hl
    induction l with
    | nil => exact hR.nil
    | cons x l ih =>
      rw [flatMap_cons, flatMap_cons]
      refine hR.append ?_ (ih fun y hy => hl y (mem_cons_of_mem _ hy))
      have hx := hl x mem_cons_self
      cases x with
      | plain c => exact hplain c hx
      | found m => exact hfound m hx
  have hrel := hall (p.segments t) segments_of
  rwa [flatMap_segments] at hrel

/-- A relation that every replacement respects relates the results. -/
theorem tryReplaceBy_rel (hR : Compatible R) {ε : Type}
    {fails : ε → Prop} {f : Match → Except ε Text} (hplain : ∀ c ∈ t, R [c] [c])
    (hfound : ∀ m, m.Of p t → Meets fails (fun new => R new m.whole) (f m)) :
    Meets fails (fun out => R out t) (p.tryReplaceBy f t) := by
  have hall : ∀ l : List Segment, (∀ x ∈ l, x.Of p t) →
      Meets fails (fun out => R out (l.flatMap Segment.text)) (rebuild f l) := by
    intro l hl
    induction l with
    | nil => exact .ok hR.nil
    | cons x l ih =>
      have hrest := ih fun y hy => hl y (mem_cons_of_mem _ hy)
      have hx := hl x mem_cons_self
      rw [flatMap_cons]
      cases x with
      | plain c =>
        exact hrest.bind fun tail htail => .ok (hR.append (hplain c hx) htail)
      | found m =>
        refine (hfound m hx).bind fun new hnew => hrest.bind fun tail htail => ?_
        exact .ok (hR.append hnew htail)
  have hrel := hall (p.segments t) segments_of
  rwa [flatMap_segments] at hrel

namespace State

/-- The remembered pieces. -/
def groups (s : State) : List (Nat × Text) :=
  s.captures.map fun entry => (entry.1, entry.2.text)

variable {s t : State} {piece : Text}

theorem lookup_groups (s : State) (k : Nat) :
    s.groups.lookup k = (s.captures.lookup k).map Capture.text := by
  rw [groups]
  induction s.captures with
  | nil => rfl
  | cons entry captures ih =>
    rw [map_cons, lookup_cons, lookup_cons]
    cases k == entry.1 with
    | true => rfl
    | false => exact ih

theorem groups_remember (h : Reads p s piece t) (n : Nat) :
    (t.remember n s).groups = (n, piece) :: t.groups := by
  have htext : (⟨s.index, s.ahead, t.index - s.index⟩ : Capture).text = piece := by
    rw [Capture.text, h.ahead_eq, h.index_eq, Nat.add_sub_cancel_left, take_left]
  simp only [groups, remember, map_cons, htext]

end State

section

variable (hanchored : p.anchored = true) (hline : '\n' ∉ t)

include hanchored hline

theorem matchStart_eq_none_of_endsWith (hlast : t.getLast? = some d) (h : p.endsWith d = false) :
    p.matchStart t = none := by
  refine Option.eq_none_iff_forall_ne_some.mpr fun m hm => ?_
  have hends := (of_matchStart hm).1.reads.endsWith (d := d)
  rw [(whole_eq_of_anchored hm hanchored hline).1] at hends
  rw [hends hlast] at h
  cases h

theorem matchStart_eq_none_of_needs {set : Char → Bool} (hneeds : p.needs set = true)
    (h : ∀ c ∈ t, set c = false) : p.matchStart t = none := by
  refine Option.eq_none_iff_forall_ne_some.mpr fun m hm => ?_
  obtain ⟨c, hc, hset⟩ := (of_matchStart hm).1.reads.needs hneeds
  rw [(whole_eq_of_anchored hm hanchored hline).1] at hc
  rw [h c hc] at hset
  cases hset

end

end Pattern

end CodeConverter

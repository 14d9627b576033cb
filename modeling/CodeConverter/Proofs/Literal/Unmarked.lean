import CodeConverter.Proofs.Literal.Outside
import CodeConverter.Proofs.Text.Run

/-!
# Respelling marks no literal

A literal is marked if the code before it ends in a free `f`. In a masked text this is the code
before a null character. Replacing matches puts no mark there if what replaces a match does not end
in an `f` and hides no edge of a word. Dropping a word together with the blanks after it puts none
there if no line ends in a mark.
-/

namespace CodeConverter.Literal

open Pattern Text List

/-- What was passed before each character `d` does not end in a mark of the given kind. The text is
written with its last character first. -/
def FreeBefore (d : Char) (ends : Text → Bool) (passed : Text) : Prop :=
  ∀ a b, passed = a ++ d :: b → ends b = false

namespace FreeBefore

variable {c d : Char} {ends : Text → Bool} {a b : Text}

theorem later (h : FreeBefore d ends (a ++ b)) : FreeBefore d ends b :=
  fun x y heq => h (a ++ x) y (by rw [heq, append_assoc])

theorem cons (h : FreeBefore d ends b) (hc : c = d → ends b = false) :
    FreeBefore d ends (c :: b) := by
  intro x y heq
  cases x with
  | nil =>
    obtain ⟨hd, rfl⟩ := cons.inj heq
    exact hc hd
  | cons d x => exact h x y (cons.inj heq).2

theorem append (h : FreeBefore d ends b) (ha : d ∉ a) : FreeBefore d ends (a ++ b) := by
  induction a with
  | nil => exact h
  | cons c a ih =>
    rw [mem_cons, not_or] at ha
    exact (ih ha.2).cons fun hc => absurd hc.symm ha.1

end FreeBefore

/-- No code ends in a mark before a null character. -/
abbrev Unmarked : Text → Prop :=
  FreeBefore '\x00' endsInMark

variable {c : Char} {whole t : Text}

/-- A character that can stand at the end of a mark. -/
def endsMark (c : Char) : Bool :=
  c = 'f' || c = 'F' || c = '\n'

theorem marks_eq_false {e : Char} (he : endsMark e = false) (t : Text) :
    startsWithMark (e :: t) = false ∧ endsInMark (e :: t) = false := by
  simp only [endsMark, Bool.or_eq_false_iff, decide_eq_false_iff_not] at he
  have hstarts : startsWithMark (e :: t) = false := by
    cases t <;> simp [startsWithMark, he]
  refine ⟨hstarts, ?_⟩
  rw [endsInMark]
  · exact hstarts
  · rintro before ⟨⟩
    exact he.2 rfl

/-- A text without null characters that does not end like a mark. -/
def isQuiet (image : Text) : Bool :=
  !image.contains '\x00' && image.getLast?.any fun e => !endsMark e

theorem exists_of_isQuiet {image : Text} (h : isQuiet image = true) :
    ∃ front e, image = front ++ [e] ∧ '\x00' ∉ front ++ [e] ∧ endsMark e = false := by
  rcases eq_nil_or_concat' image with rfl | ⟨front, e, rfl⟩
  · cases h
  · refine ⟨front, e, rfl, ?_⟩
    simpa [isQuiet] using h

/-- Code that ends in an `f` is a mark if it stands free. -/
theorem startsWithMark_cons (c : Char) (t : Text) :
    startsWithMark (c :: t) = ((c = 'f' || c = 'F') && !(t.head?.any isWord)) := by
  cases t <;> simp [startsWithMark]

theorem endsInMark_cons (hc : c ≠ '\n') (t : Text) :
    endsInMark (c :: t) = startsWithMark (c :: t) := by
  rw [endsInMark]
  rintro before ⟨⟩
  exact hc rfl

/-- How the passed parts of the old and the new text go together, given the text ahead: the new one
has a mark only where the old one has, and hides no edge of a word. -/
structure Follows (old new rest : Text) : Prop where
  unmarked : Unmarked old → Unmarked new
  starts : startsWithMark new = true → startsWithMark old = true
  ends : endsInMark new = true → endsInMark old = true
  edge : rest.head?.any isWord = true → new.head?.any isWord = false → old.head?.any isWord = false

namespace Follows

variable {old new rest : Text}

theorem plain (h : Follows old new (c :: rest)) : Follows (c :: old) (c :: new) rest := by
  have hstarts : startsWithMark (c :: new) = true → startsWithMark (c :: old) = true := by
    rw [startsWithMark_cons, startsWithMark_cons, Bool.and_eq_true, Bool.and_eq_true,
      Bool.not_eq_true', Bool.not_eq_true']
    rintro ⟨hmark, hfree⟩
    refine ⟨hmark, h.edge ?_ hfree⟩
    rcases Bool.or_eq_true_iff.mp hmark with hc | hc
    · rw [of_decide_eq_true hc]
      rfl
    · rw [of_decide_eq_true hc]
      rfl
  refine ⟨fun hold => ?_, hstarts, ?_, fun _ hnew => hnew⟩
  · refine .cons (h.unmarked (.later (a := [c]) hold)) fun hnull => ?_
    have hfalse := hold [] old (by rw [hnull]; rfl)
    rw [Bool.eq_false_iff] at hfalse ⊢
    exact fun hends => hfalse (h.ends hends)
  · by_cases hline : c = '\n'
    · subst hline
      exact h.starts
    · rw [endsInMark_cons hline, endsInMark_cons hline]
      exact hstarts

theorem replaced {image : Text} (h : Follows old new (whole ++ rest))
    (himage : isQuiet image = true)
    (hedge : rest.head?.any isWord = true → image.getLast?.any isWord = false →
      whole.getLast?.any isWord = false ∧ whole ≠ []) :
      Follows (whole.reverse ++ old) (image.reverse ++ new) rest := by
  obtain ⟨front, e, rfl, hnull, he⟩ := exists_of_isQuiet himage
  have hnew : (front ++ [e]).reverse ++ new = e :: (front.reverse ++ new) := by simp
  obtain ⟨hstarts, hends⟩ := marks_eq_false he (front.reverse ++ new)
  refine ⟨fun hold => (h.unmarked hold.later).append (mt mem_reverse.mp hnull), ?_, ?_,
    fun hrest hfree => ?_⟩
  · rw [hnew, hstarts]
    exact nofun
  · rw [hnew, hends]
    exact nofun
  · rw [hnew] at hfree
    obtain ⟨hword, hne⟩ := hedge hrest (by simpa using hfree)
    obtain ⟨first, d, rfl⟩ := eq_nil_or_concat' whole |>.resolve_left hne
    simpa using hword

end Follows

/-- Masked texts without marks are sent to such texts. -/
def KeepsUnmarked (f : Text → Text) : Prop :=
  ∀ t, Unmarked t.reverse → Unmarked (f t).reverse

section Images

variable {p : Pattern} {image : Text}

theorem keepsUnmarked_replaceWith (himage : isQuiet image = true)
    (hedge : ∀ (t : Text) (m : Match), m.Of p t → m.last.ahead.head?.any isWord = true →
      image.getLast?.any isWord = false → m.whole.getLast?.any isWord = false ∧ m.whole ≠ []) :
      KeepsUnmarked (p.replaceWith image) := by
  intro t ht
  have hcarried : CarriedOn p (fun _ => image) t Follows := by
    refine ⟨fun c old new rest h => h.plain, fun m old new hof _ h => ?_⟩
    have hahead := hof.ahead_eq
    rw [hahead] at h
    exact h.replaced himage (hedge t m hof)
  have hstart : Follows [] [] t := ⟨fun h => h, fun h => h, fun h => h, fun _ h => h⟩
  exact (hcarried.rel_replaceBy hstart).unmarked ht

theorem keepsUnmarked_of_word (himage : isQuiet image = true := by decide)
    (hword : image.getLast?.any isWord = true := by decide) : KeepsUnmarked (p.replaceWith image) :=
  keepsUnmarked_replaceWith himage fun _ _ _ _ hfalse => by
    rw [hword] at hfalse
    cases hfalse

theorem keepsUnmarked_of_endsWith (himage : isQuiet image = true) (hlength : 0 < p.minLength)
    (hends : ∀ d, p.endsWith d = true → isWord d = false) :
    KeepsUnmarked (p.replaceWith image) := by
  refine keepsUnmarked_replaceWith himage fun t m hof _ _ => ?_
  have hne : m.whole ≠ [] := length_pos_iff.mp (Nat.lt_of_lt_of_le hlength hof.reads.minLength_le)
  refine ⟨?_, hne⟩
  rw [Option.any_eq_false]
  exact fun d hd => by simp [hends d (hof.reads.endsWith hd)]

theorem keepsUnmarked_of_edge (himage : isQuiet image = true := by decide)
    (hlength : 0 < p.minLength := by decide) :
    KeepsUnmarked ((Pattern.seq p .wordEdge).replaceWith image) := by
  refine keepsUnmarked_replaceWith himage fun t m hof hrest _ => ?_
  have hne : m.whole ≠ [] := by
    refine length_pos_iff.mp (Nat.lt_of_lt_of_le ?_ hof.reads.minLength_le)
    exact Nat.lt_of_lt_of_le hlength (Nat.le_add_right _ _)
  obtain ⟨a, u, b, -, -, hb⟩ := reads_seq_iff.mp hof.reads
  obtain ⟨-, hu, hedge⟩ := reads_wordEdge_iff.mp hb
  have hbefore := hof.reads.before_eq
  rw [← hu, State.isWordEdge, hrest, hbefore] at hedge
  cases hlastChar : m.whole.getLast? with
  | none => exact absurd (getLast?_eq_none_iff.mp hlastChar) hne
  | some d =>
    rw [hlastChar] at hedge
    exact ⟨by simpa using hedge, hne⟩

theorem keepsUnmarked_replace {old : Text} (himage : isQuiet image = true := by decide)
    (hold : old.getLast?.any (fun d => !isWord d) = true := by decide) :
    KeepsUnmarked (Text.replace old image) := by
  have hne : old ≠ [] := by
    rintro rfl
    cases hold
  have heq : Text.replace old image = (Pattern.literal old).replaceWith image :=
    funext (replace_eq_replaceWith hne image)
  rw [heq]
  refine keepsUnmarked_of_endsWith himage (length_pos_iff.mpr hne) fun x hx => ?_
  rw [of_decide_eq_true hx] at hold
  simpa using hold

end Images

/-- No line of a text ends in a mark. -/
abbrev UnmarkedLines : Text → Prop :=
  FreeBefore '\n' startsWithMark

/-- Only an `f` right before a literal marks it. -/
theorem UnmarkedLines.startsWithMark_of_endsInMark {b : Text} (h : UnmarkedLines b)
    (hends : endsInMark b = true) : startsWithMark b = true := by
  cases b with
  | nil => exact hends
  | cons c b =>
    by_cases hline : c = '\n'
    · subst hline
      have hfalse := h [] b rfl
      rw [show endsInMark ('\n' :: b) = startsWithMark b from rfl, hfalse] at hends
      cases hends
    · rwa [endsInMark_cons hline] at hends

theorem isWord_of_startsWithMark (h : startsWithMark t = true) : t.head?.any isWord = true := by
  cases t with
  | nil => cases h
  | cons c t =>
    rw [startsWithMark_cons, Bool.and_eq_true, Bool.or_eq_true, decide_eq_true_eq,
      decide_eq_true_eq] at h
    rcases h.1 with rfl | rfl <;> rfl

/-- An `f` right before a literal marks it. -/
theorem endsInMark_of_startsWithMark (h : startsWithMark t = true) : endsInMark t = true := by
  have hword := isWord_of_startsWithMark h
  cases t with
  | nil => cases h
  | cons c t =>
    have hline : c ≠ '\n' := by
      rintro rfl
      cases hword
    rwa [endsInMark_cons hline]

/-- How the passed parts of a text and of the text without some words go together. -/
structure Shortened (old new rest : Text) : Prop where
  lines : UnmarkedLines (rest.reverse ++ old)
  linesNew : UnmarkedLines new
  unmarked : Unmarked old → Unmarked new
  starts : startsWithMark new = true → startsWithMark old = true
  word : old.head?.any isWord = false → new.head?.any isWord = false
  edge : rest.head?.any isWord = true → new.head?.any isWord = false → old.head?.any isWord = false

namespace Shortened

variable {old new rest : Text}

theorem follows (h : Shortened old new rest) : Follows old new rest :=
  ⟨h.unmarked, h.starts, fun hends =>
    endsInMark_of_startsWithMark (h.starts (h.linesNew.startsWithMark_of_endsInMark hends)), h.edge⟩

theorem plain (h : Shortened old new (c :: rest)) : Shortened (c :: old) (c :: new) rest := by
  have hfollows := h.follows.plain
  have hlines := h.lines
  rw [reverse_cons, append_assoc, singleton_append] at hlines
  refine ⟨hlines, h.linesNew.cons fun hc => ?_, hfollows.unmarked, hfollows.starts, fun hold =>
    hold, hfollows.edge⟩
  have hfalse := hlines rest.reverse old (by rw [hc])
  rw [Bool.eq_false_iff] at hfalse ⊢
  exact fun hstarts => hfalse (h.starts hstarts)

theorem drop {d : Char} (h : Shortened old new (whole ++ rest))
    (hold : old.head?.any isWord = false) (hlast : whole.getLast? = some d)
    (hd : isWord d = false) : Shortened (whole.reverse ++ old) new rest := by
  have hnew := h.word hold
  have hlines := h.lines
  rw [reverse_append, append_assoc] at hlines
  obtain ⟨front, rfl⟩ := getLast?_eq_some_iff.mp hlast
  refine ⟨hlines, h.linesNew, fun hunmarked => h.unmarked hunmarked.later, fun hstarts => ?_,
    fun _ => hnew, fun _ _ => by simpa using hd⟩
  rw [isWord_of_startsWithMark hstarts] at hnew
  cases hnew

end Shortened

/-- Dropping words with the blanks after them marks nothing if no line ends in a mark. -/
theorem unmarked_dropWord {word : Text} (hword : word.head? = some c) (hc : isWord c = true)
    (ht : Unmarked t.reverse) (hlines : UnmarkedLines t.reverse) :
    Unmarked ((Pattern.seq (.seq .wordEdge (.literal word)) gap).replaceWith [] t).reverse := by
  have hcarried :
      CarriedOn (.seq (.seq .wordEdge (.literal word)) gap) (fun _ => []) t Shortened := by
    refine ⟨fun d old new rest h => h.plain, fun m old new hof hbefore h => ?_⟩
    have hahead := hof.ahead_eq
    obtain ⟨start, u, blanks, hwhole, hstart, -⟩ := reads_seq_iff.mp hof.reads
    obtain ⟨nothing, v, name, rfl, hedge, hname⟩ := reads_seq_iff.mp hstart
    obtain ⟨rfl, rfl, hplace⟩ := reads_wordEdge_iff.mp hedge
    obtain ⟨rfl, -⟩ := reads_literal_iff.mp hname
    -- A word begins here, so none ends here in the old line, and none in the new one.
    obtain ⟨letters, rfl⟩ : ∃ letters, name = c :: letters := by
      cases name with
      | nil => cases hword
      | cons x letters =>
        cases hword
        exact ⟨letters, rfl⟩
    have hold : old.head?.any isWord = false := by
      rw [← hbefore]
      have hstarts : m.first.ahead.head? = some c := by rw [hahead, hwhole]; rfl
      simpa [State.isWordEdge, hstarts, hc] using hplace
    have hne : m.whole ≠ [] := by
      rw [hwhole]
      exact cons_ne_nil _ _
    obtain ⟨d, hlast⟩ : ∃ d, m.whole.getLast? = some d :=
      Option.isSome_iff_exists.mp (by simpa using hne)
    have hblank : isBlank d = true := by
      simpa [Pattern.endsWith, gap, many1, append_eq_seq,
        Pattern.nullable] using hof.reads.endsWith hlast
    rw [hahead] at h
    exact h.drop hold hlast (isWord_eq_false_of_isBlank hblank)
  have hstart : Shortened [] [] t :=
    ⟨by rwa [append_nil], fun a b heq => by simp at heq, fun h => h, fun h => h, fun h => h,
      fun _ h => h⟩
  exact (hcarried.rel_replaceBy hstart).unmarked ht

end CodeConverter.Literal

import CodeConverter.Proofs.Pattern.Preferred
import CodeConverter.Proofs.Program.Name

/-!
# Reading a sketch of a text

A sketch says what is known of a text: which characters and which words it consists of. `leads`
computes the sketches of what a pattern can leave of a sketched text. It leaves out no reading
(`Reads.leads`), so a pattern that leads nowhere does not match, and that is found out by
evaluation.
-/

namespace CodeConverter

open List hiding set
open Text Program Pattern

/-- What is known of a text. -/
inductive Sketch where
  /-- Characters of a class. -/
  | rest (set : Char → Bool)
  | sign (c : Char) (next : Sketch)
  /-- What is left of a word that is not listed, with what was read of it where that is known. -/
  | word (listed : List Text) (seen : Option Text) (next : Sketch)
  /-- A mark of a class. -/
  | mark (set : Char → Bool) (next : Sketch)

namespace Sketch

/-- The sketch is one of the text behind a character. -/
def Draws : Sketch → Option Char → Text → Prop
  | .rest set, _, t => ∀ c ∈ t, set c = true
  | .sign c next, _, t => ∃ u, t = c :: u ∧ next.Draws (some c) u
  | .word listed seen next, before, t => ∃ v u, t = v ++ u ∧ (∀ c ∈ v, isWord c = true) ∧
      (∀ w ∈ seen, w ++ v ≠ [] ∧ w ++ v ∉ listed) ∧ (before.any isWord = true ∨ seen = some []) ∧
      next.Draws (v.getLast?.or before) u
  | .mark set next, _, t => ∃ c u, t = c :: u ∧ isMark c = true ∧ set c = true ∧
      next.Draws (some c) u

/-- Whether the word may end where it was read to. -/
def mayEnd (listed : List Text) (seen : Option Text) : Bool :=
  seen.all fun w => !w.isEmpty && !listed.contains w

/-- The sketches of what follows one character: one that fits, of a class that is hit, within a word
as it is read, and perhaps a mark. -/
def step (fits : Char → Bool) (hits : (Char → Bool) → Bool)
    (reads : List (Option Text → Option Text)) (marks : Bool) : Sketch → List Sketch
  | .rest set => if hits set then [.rest set] else []
  | .sign d next => if fits d then [next] else []
  | .word listed seen next =>
    reads.map (fun f => .word listed (f seen) next) ++ if mayEnd listed seen
      then next.step fits hits reads marks else []
  | .mark set next => if marks && hits set then [next] else []

/-- The sketches of what follows the character. -/
def eat (c : Char) : Sketch → List Sketch :=
  step (· = c) (· c) (if isWord c then [Option.map (· ++ [c])] else []) (isMark c)

/-- Whether the class has word characters, judged by two of them. -/
def hasWord (set : Char → Bool) : Bool :=
  set 'a' || set 'A'

/-- Whether the class has marks, judged by four of them. -/
def hasMark (set : Char → Bool) : Bool :=
  ['$', '@', '\\', '\u0301'].any set

/-- A class that is judged rightly. -/
structure Judged (set : Char → Bool) : Prop where
  word : hasWord set = false → ∀ c, isWord c = true → set c = false
  mark : hasMark set = false → ∀ c, isMark c = true → set c = false

theorem judged_wide {set : Char → Bool} (hword : hasWord set = true) (hmark : hasMark set = true) :
    Judged set where
  word := fun h => by cases hword.symm.trans h
  mark := fun h => by cases hmark.symm.trans h

theorem judged_isBlank : Judged isBlank where
  word := fun _ _ => isBlank_eq_false_of_isWord
  mark := fun _ _ => isBlank_eq_false_of_isMark

theorem judged_isWord : Judged isWord where
  word := fun h => by cases h
  mark := fun _ _ hc => isWord_eq_false_of_isMark hc

theorem judged_among {listed : Text} (h : listed.all (fun d => !(isWord d || isMark d)) = true) :
    Judged (among listed) := by
  have hnone : ∀ c, (isWord c || isMark c) = true → among listed c = false := by
    intro c hc
    rw [among, contains_eq_mem, decide_eq_false_iff_not]
    intro hmem
    have hother := all_eq_true.mp h c hmem
    rw [hc] at hother
    cases hother
  exact ⟨fun _ c hc => hnone c (by rw [hc]; rfl), fun _ c hc => hnone c (by rw [hc, Bool.or_true])⟩

theorem Judged.or {a b : Char → Bool} (ha : Judged a) (hb : Judged b) :
    Judged fun c => a c || b c where
  word := by
    intro h c hc
    have hnot : hasWord a = false ∧ hasWord b = false := by
      simp only [hasWord, Bool.or_eq_false_iff] at h ⊢
      exact ⟨⟨h.1.1, h.2.1⟩, h.1.2, h.2.2⟩
    rw [ha.word hnot.1 c hc, hb.word hnot.2 c hc]
    rfl
  mark := by
    intro h c hc
    have hnot : hasMark a = false ∧ hasMark b = false := by
      simp only [hasMark, any_eq_false, Bool.or_eq_true, not_or] at h ⊢
      exact ⟨fun d hd => (h d hd).1, fun d hd => (h d hd).2⟩
    rw [ha.mark hnot.1 c hc, hb.mark hnot.2 c hc]
    rfl

theorem judged_wordOr {listed : Text} (h : listed.all (fun d => !(isWord d || isMark d)) = true) :
    Judged (wordOr listed) :=
  judged_isWord.or (judged_among h)

theorem judged_letters {set : Char → Bool} (hword : hasWord set = true)
    (hsub : ∀ c, set c = true → isWord c = true) : Judged set where
  word := fun h => by cases hword.symm.trans h
  mark := fun _ c hc => by
    rw [Bool.eq_false_iff]
    intro hset
    rw [isMark, hsub c hset] at hc
    cases hc

/-- The sketches of what follows a character of the class. -/
def pass (set : Char → Bool) : Sketch → List Sketch :=
  step set (fun _ => true) (if hasWord set then [fun _ => none] else []) (hasMark set)

/-- The sketches of what follows any number of characters of the class. -/
def passMany (set : Char → Bool) : Sketch → List Sketch
  | .rest other => [.rest other]
  | .sign d next => .sign d next :: if set d then next.passMany set else []
  | .word listed seen next =>
    .word listed seen next :: ((if hasWord set then [.word listed none next] else []) ++
      if hasWord set || mayEnd listed seen then next.passMany set else [])
  | .mark other next => .mark other next :: if hasMark set then next.passMany set else []

/-- The sketches of what follows a place with a word character on one side. -/
def edge : Sketch → List Sketch
  | .word listed seen next =>
    if seen = some [] then [.word listed seen next] else if mayEnd listed seen then [next] else []
  | sketch => [sketch]

/-- Whether the text may be over. -/
def mayStop : Sketch → Bool
  | .rest _ => true
  | .sign c _ => c = '\n'
  | .word listed seen next => mayEnd listed seen && next.mayStop
  | .mark _ _ => false

/-- The sketches of what follows at most `n` rounds, and no knowledge of what follows more of
them. -/
def rounds (step : Sketch → List Sketch) : Nat → Sketch → List Sketch
  | 0, _ => [.rest fun _ => true]
  | n + 1, sketch => sketch :: (step sketch).flatMap (rounds step n)

variable {before : Option Char} {t : Text} {sketch next : Sketch} {c : Char} {set : Char → Bool}
    {listed : List Text} {seen : Option Text}

theorem draws_word {word rest : Text} (hne : word ≠ []) (hword : ∀ c ∈ word, isWord c = true)
    (hother : word ∉ listed)
    (hnext : ∀ before, next.Draws before rest) :
    (Sketch.word listed (some []) next).Draws before (word ++ rest) := by
  refine ⟨word, rest, rfl, hword, fun w hw => ?_, .inr rfl, hnext _⟩
  obtain rfl := Option.some.inj hw
  exact ⟨hne, hother⟩

theorem mayEnd_of_forall (h : ∀ w ∈ seen, w ++ [] ≠ [] ∧ w ++ [] ∉ listed) :
    mayEnd listed seen = true := by
  cases seen with
  | none => rfl
  | some w => simpa [mayEnd] using h w rfl

/-- One character of the text is one of the sketch. -/
theorem Draws.step {fits : Char → Bool} {hits : (Char → Bool) → Bool}
    {reads : List (Option Text → Option Text)}
    {marks : Bool} (h : sketch.Draws before (c :: t)) (hfits : fits c = true)
    (hhits : ∀ set : Char → Bool, set c = true → hits set = true)
    (hreads : isWord c = true → ∃ f ∈ reads, ∀ seen, ∀ w ∈ f seen, ∃ v ∈ seen, w = v ++ [c])
    (hmarks : isMark c = true → marks = true) :
    ∃ after ∈ sketch.step fits hits reads marks, after.Draws (some c) t := by
  induction sketch generalizing before with
  | rest set =>
    rw [Draws, forall_mem_cons] at h
    exact ⟨.rest set, by simp [Sketch.step, hhits set h.1], h.2⟩
  | sign d next =>
    obtain ⟨u, hu, hnext⟩ := h
    obtain ⟨rfl, rfl⟩ := cons.inj hu
    exact ⟨next, by simp [Sketch.step, hfits], hnext⟩
  | word listed seen next ih =>
    obtain ⟨v, u, ht, hv, hseen, -, hnext⟩ := h
    rw [Sketch.step]
    cases v with
    | nil =>
      obtain rfl : c :: t = u := ht
      obtain ⟨after, hmem, hafter⟩ := ih hnext
      exact ⟨after, mem_append_right _ (by rwa [if_pos (mayEnd_of_forall hseen)]), hafter⟩
    | cons d v =>
      obtain ⟨rfl, rfl⟩ := cons.inj ht
      have hc := hv c mem_cons_self
      obtain ⟨f, hf, hread⟩ := hreads hc
      refine ⟨.word listed (f seen) next, mem_append_left _ (mem_map_of_mem hf), v, u, rfl,
        fun e he => hv e (mem_cons_of_mem c he), fun w hw => ?_, .inl hc, ?_⟩
      · obtain ⟨x, hx, rfl⟩ := hread seen w hw
        simpa using hseen x hx
      · rwa [getLast?_cons, Option.some_or, ← Option.or_some] at hnext
  | mark set next =>
    obtain ⟨d, u, hu, hmark, hset, hnext⟩ := h
    obtain ⟨rfl, rfl⟩ := cons.inj hu
    exact ⟨next, by simp [Sketch.step, hmarks hmark, hhits set hset], hnext⟩

theorem Draws.eat (h : sketch.Draws before (c :: t)) :
    ∃ after ∈ sketch.eat c, after.Draws (some c) t := by
  refine h.step (by simp) (fun _ hset => hset)
    (fun hc => ⟨_, by rw [if_pos hc]; exact mem_singleton_self _, fun seen w hw => ?_⟩) id
  obtain ⟨v, hv, rfl⟩ := Option.map_eq_some_iff.mp hw
  exact ⟨v, hv, rfl⟩

theorem Draws.pass (h : sketch.Draws before (c :: t)) (hjudged : Judged set) (hset : set c = true) :
    ∃ after ∈ sketch.pass set, after.Draws (some c) t := by
  refine h.step hset (fun _ _ => rfl)
    (fun hc => ⟨fun _ => none, ?_, fun _ w hw => absurd hw (Option.not_mem_none w)⟩) fun hc => ?_
  · have hword : hasWord set = true := by
      by_contra hnot
      rw [hjudged.word (Bool.eq_false_iff.mpr hnot) c hc] at hset
      cases hset
    rw [if_pos hword]
    exact mem_singleton_self _
  · by_contra hnot
    rw [hjudged.mark (Bool.eq_false_iff.mpr hnot) c hc] at hset
    cases hset

theorem mem_passMany {after last : Sketch} (hafter : after ∈ sketch.pass set)
    (hlast : last ∈ after.passMany set) : last ∈ sketch.passMany set := by
  induction sketch with
  | rest other =>
    obtain rfl := mem_singleton.mp hafter
    exact hlast
  | sign d next =>
    rw [Sketch.pass, Sketch.step, mem_ite_nil_right, mem_singleton] at hafter
    obtain ⟨hd, rfl⟩ := hafter
    rw [Sketch.passMany, if_pos hd]
    exact mem_cons_of_mem _ hlast
  | word listed seen next ih =>
    rw [Sketch.pass, Sketch.step, mem_append, mem_ite_nil_right] at hafter
    rw [Sketch.passMany]
    rcases hafter with hafter | ⟨hend, hafter⟩
    · obtain ⟨f, hf, rfl⟩ := mem_map.mp hafter
      rw [mem_ite_nil_right, mem_singleton] at hf
      obtain ⟨hword, rfl⟩ := hf
      rw [Sketch.passMany] at hlast
      simp only [hword, Bool.true_or, if_true, mem_cons, mem_append, not_mem_nil,
        or_false] at hlast ⊢
      exact .inr (hlast.elim .inl id)
    · exact mem_cons_of_mem _ (mem_append_right _ (by simpa [hend] using ih hafter))
  | mark other next =>
    rw [Sketch.pass, Sketch.step, Bool.and_true, mem_ite_nil_right, mem_singleton] at hafter
    obtain ⟨hmark, rfl⟩ := hafter
    rw [Sketch.passMany, if_pos hmark]
    exact mem_cons_of_mem _ hlast

theorem Draws.passMany {run : Text} (h : sketch.Draws before (run ++ t)) (hjudged : Judged set)
    (hrun : ∀ c ∈ run, set c = true) :
    ∃ after ∈ sketch.passMany set, after.Draws (run.getLast?.or before) t := by
  induction run generalizing sketch before with
  | nil => exact ⟨sketch, by cases sketch <;> exact mem_cons_self, h⟩
  | cons c run ih =>
    obtain ⟨after, hafter, hnext⟩ := Draws.pass h hjudged (hrun c mem_cons_self)
    obtain ⟨last, hlast, hdraws⟩ := ih hnext fun d hd => hrun d (mem_cons_of_mem c hd)
    refine ⟨last, mem_passMany hafter hlast, ?_⟩
    rwa [getLast?_cons, Option.some_or, ← Option.or_some]

theorem Draws.edge (h : sketch.Draws before t) (hedge : before.any isWord ≠ t.head?.any isWord) :
    ∃ after ∈ sketch.edge, after.Draws before t := by
  cases sketch with
  | word listed seen next =>
    obtain ⟨v, u, rfl, hv, hseen, hbefore, hnext⟩ := h
    rw [Sketch.edge]
    split
    · exact ⟨_, mem_singleton_self _, v, u, rfl, hv, hseen, hbefore, hnext⟩
    · rename_i hread
      have hword := hbefore.resolve_right hread
      cases v with
      | nil => exact ⟨next, by simp [mayEnd_of_forall hseen], hnext⟩
      | cons c v => exact absurd (by simp [hword, hv c mem_cons_self]) hedge
  | _ => exact ⟨_, mem_singleton_self _, h⟩

/-- A sketch of the end may stop. -/
theorem Draws.mayStop (h : sketch.Draws before t) (ht : t = [] ∨ t = ['\n']) :
    sketch.mayStop = true := by
  induction sketch generalizing before t with
  | rest => rfl
  | sign c next =>
    obtain ⟨u, rfl, -⟩ := h
    have hc : c = '\n' ∧ u = [] := by simpa using ht
    exact decide_eq_true hc.1
  | word listed seen next ih =>
    obtain ⟨v, u, rfl, hv, hseen, -, hnext⟩ := h
    cases v with
    | nil => rw [Sketch.mayStop, mayEnd_of_forall hseen, ih hnext ht]; rfl
    | cons c v =>
      have hc : c = '\n' ∧ v = [] ∧ u = [] := by simpa using ht
      rw [hc.1] at hv
      cases hv _ mem_cons_self
  | mark set next =>
    obtain ⟨c, u, rfl, hmark, -⟩ := h
    have hc : c = '\n' ∧ u = [] := by simpa using ht
    rw [hc.1] at hmark
    cases hmark

theorem exists_of_mem_rounds {step : Sketch → List Sketch} {n : Nat} {last : Sketch}
    (h : last ∈ rounds step (n + 1) sketch) :
    ∃ other ∈ rounds step n sketch, ∀ before t, last.Draws before t → other.Draws before t := by
  induction n generalizing sketch with
  | zero => exact ⟨_, mem_singleton_self _, fun _ _ _ _ _ => rfl⟩
  | succ n ih =>
    rcases mem_cons.mp h with rfl | h
    · exact ⟨last, mem_cons_self, fun _ _ hdraws => hdraws⟩
    · obtain ⟨after, hafter, hlast⟩ := mem_flatMap.mp h
      obtain ⟨other, hother, himp⟩ := ih hlast
      exact ⟨other, mem_cons_of_mem _ (mem_flatMap.mpr ⟨after, hafter, hother⟩), himp⟩

end Sketch

namespace Pattern

/-- The sketches of what the pattern can leave of a sketched text. -/
def leads : Pattern → Sketch → List Sketch
  | .literal t, sketch => t.foldl (fun found c => found.flatMap (·.eat c)) [sketch]
  | .char set, sketch => sketch.pass set
  | .chars set _, sketch => sketch.passMany set
  | .seq p q, sketch => (p.leads sketch).flatMap q.leads
  | .alt p q, sketch => p.leads sketch ++ q.leads sketch
  | .star p, sketch => Sketch.rounds p.leads 3 sketch
  | .group _ p, sketch => p.leads sketch
  | .again _, _ => [.rest fun _ => true]
  | .atEnd, sketch => if sketch.mayStop then [sketch] else []
  | .wordEdge, sketch => sketch.edge
  | _, sketch => [sketch]

/-- The classes of a pattern. -/
def classes : Pattern → List (Char → Bool)
  | .char set | .chars set _ => [set]
  | .seq p q | .alt p q => p.classes ++ q.classes
  | .star p | .group _ p => p.classes
  | _ => []

/-- The classes of the pattern are judged rightly. -/
def Judged (p : Pattern) : Prop :=
  ∀ set ∈ p.classes, Sketch.Judged set

variable {p q : Pattern} {s t : State} {piece text : Text} {sketch : Sketch}

theorem exists_leads_literal {found : List Sketch} {before : Option Char} {rest : Text}
    (h : ∃ sketch ∈ found, sketch.Draws before (text ++ rest)) :
    ∃ after ∈ text.foldl (fun found c => found.flatMap (·.eat c)) found,
    after.Draws (text.getLast?.or before) rest := by
  induction text generalizing found before with
  | nil => exact h
  | cons c text ih =>
    obtain ⟨sketch, hmem, hdraws⟩ := h
    obtain ⟨after, hafter, hnext⟩ := Sketch.Draws.eat hdraws
    rw [getLast?_cons, Option.some_or, ← Option.or_some]
    exact ih ⟨after, mem_flatMap.mpr ⟨sketch, hmem, hafter⟩, hnext⟩

/-- No reading is left out. -/
theorem Reads.leads (h : Reads p s piece t) (hjudged : p.Judged)
    (hsketch : sketch.Draws s.before s.ahead) :
    ∃ after ∈ p.leads sketch, after.Draws t.before t.ahead := by
  induction h generalizing sketch with
  | literal s text rest hahead =>
    rw [hahead] at hsketch
    exact exists_leads_literal ⟨sketch, mem_singleton_self _, hsketch⟩
  | char s set c rest hahead hset =>
    rw [hahead] at hsketch
    exact hsketch.pass (hjudged set (mem_singleton_self set)) hset
  | chars s set greedy run rest hahead hrun =>
    rw [hahead] at hsketch
    exact hsketch.passMany (hjudged set (mem_singleton_self set)) hrun
  | seq _ _ ihp ihq =>
    obtain ⟨mid, hmid, hdraws⟩ := ihp (fun set hset => hjudged set (mem_append_left _ hset)) hsketch
    obtain ⟨after, hafter, hnext⟩ :=
      ihq (fun set hset => hjudged set (mem_append_right _ hset)) hdraws
    exact ⟨after, mem_flatMap.mpr ⟨mid, hmid, hafter⟩, hnext⟩
  | altLeft _ ih =>
    obtain ⟨after, hafter, hnext⟩ :=
      ih (fun set hset => hjudged set (mem_append_left _ hset)) hsketch
    exact ⟨after, mem_append_left _ hafter, hnext⟩
  | altRight _ ih =>
    obtain ⟨after, hafter, hnext⟩ :=
      ih (fun set hset => hjudged set (mem_append_right _ hset)) hsketch
    exact ⟨after, mem_append_right _ hafter, hnext⟩
  | starCons _ _ _ ihp ihstar =>
    obtain ⟨mid, hmid, hdraws⟩ := ihp hjudged hsketch
    obtain ⟨after, hafter, hnext⟩ := ihstar hjudged hdraws
    -- The rounds that are evaluated leave sketches that draw all that further ones would.
    obtain ⟨other, hother, himp⟩ := Sketch.exists_of_mem_rounds (n := 3)
      (mem_cons_of_mem sketch (mem_flatMap.mpr ⟨mid, hmid, hafter⟩))
    exact ⟨other, hother, himp _ _ hnext⟩
  | starNil => exact ⟨sketch, mem_cons_self, hsketch⟩
  | group _ _ ih => exact ih hjudged hsketch
  | again => exact ⟨_, mem_singleton_self _, fun _ _ => rfl⟩
  | atEnd s hend =>
    have hstop : sketch.mayStop = true := hsketch.mayStop (by simpa [State.isEnd] using hend)
    exact ⟨sketch, by simp [Pattern.leads, hstop], hsketch⟩
  | wordEdge s hedge => exact hsketch.edge (by simpa [State.isWordEdge] using hedge)
  | _ => exact ⟨sketch, mem_singleton_self _, hsketch⟩

theorem not_reads_of_leads (hjudged : p.Judged) (h : (p.leads sketch).isEmpty = true)
    (hsketch : sketch.Draws s.before s.ahead) : ¬ Reads p s piece t := by
  intro hreads
  obtain ⟨after, hmem, -⟩ := hreads.leads hjudged hsketch
  rw [List.isEmpty_iff.mp h] at hmem
  cases hmem

end Pattern

end CodeConverter

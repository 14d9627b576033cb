import Mathlib.Data.List.MinMax
import Mathlib.Order.Nat
import CodeConverter.Expression.ToPython
import CodeConverter.Proofs.Pattern.Replace
import CodeConverter.Proofs.Pattern.Field

/-!
# Arrays

Long arrays are replaced from the inside out until none is left. Every round removes parentheses, so
the rounds come to an end (`longArraysFrom_rounds`). An array becomes a dictionary or a list as its
own items say, however deep it is (`Value.longArrays_print`).
-/

namespace CodeConverter.Expression.ToPython

open Text Pattern List Bool

/-! ## Rounds -/

/-- One round: all arrays without parentheses inside are replaced. -/
def round (t : Text) : Text :=
  longArray.replaceBy (fun m => collection (m.group 1)) t

theorem not_mem_collection {c : Char} {items : Text} (hc : c ∉ "{}[]: ".toList) (h : c ∉ items) :
    c ∉ collection items := by
  have hadds :
      AddsOnly ": ".toList.contains ((blanks ++ "=>" ++ blanks).replaceWith ": " items) items :=
    addsOnly_replaceWith _ items (by decide)
  have harrow : c ∉ (blanks ++ "=>" ++ blanks).replaceWith ": " items := fun hmem =>
    (hadds c hmem).elim h fun hsep => by simp_all
  simp only [collection]
  split <;> simp_all

theorem count_round_lt {t : Text} (h : longArray.occursIn t = true) :
    (round t).count '(' < t.count '(' := by
  refine countP_replaceBy_lt h fun m hof => ?_
  obtain ⟨a, s, u, hstart, hinner, hwhole, -⟩ := Match.Of.enclosed hof
  obtain ⟨hplain, -⟩ := reads_chars_iff.mp hinner
  have hnot : '(' ∉ m.group 1 := fun hmem => by cases hplain _ hmem
  have hnone : (collection (m.group 1)).count '(' = 0 :=
    count_eq_zero.mpr (not_mem_collection (by decide) hnot)
  obtain ⟨_, _, _, rfl, -, hlit⟩ := reads_seq_iff.mp hstart
  obtain ⟨rfl, -⟩ := reads_literal_iff.mp hlit
  show (collection (m.group 1)).count '(' < m.whole.count '('
  rw [hnone, hwhole]
  exact count_pos_iff.mpr (by simp)

/-- The loop makes rounds until no long array is left. -/
theorem longArraysFrom_rounds {n : Nat} {t : Text} (hn : t.count '(' ≤ n) :
    ∃ k, longArraysFrom n t = round^[k] t ∧
    (∀ j < k, longArray.occursIn (round^[j] t) = true) ∧
    longArray.occursIn (round^[k] t) = false := by
  induction n generalizing t with
  | zero =>
    refine ⟨0, rfl, fun j hj => absurd hj (Nat.not_lt_zero j), eq_false_iff.mpr fun h => ?_⟩
    exact absurd (Nat.lt_of_lt_of_le (count_round_lt h) hn) (Nat.not_lt_zero _)
  | succ n ih =>
    rw [longArraysFrom]
    split
    next h =>
      obtain ⟨k, hk, hbefore, hend⟩ :=
        @ih (round t) (Nat.le_of_lt_succ (Nat.lt_of_lt_of_le (count_round_lt h) hn))
      refine ⟨k + 1, hk, fun j hj => ?_, hend⟩
      cases j with
      | zero => exact h
      | succ j => exact hbefore j (Nat.lt_of_succ_lt_succ hj)
    next h => exact ⟨0, rfl, fun j hj => absurd hj (Nat.not_lt_zero j), eq_false_iff.mpr h⟩

/-! ## Arrays as trees -/

/-- A parenthesis. -/
def isRound (c : Char) : Bool :=
  c = '(' || c = ')'

/-- A key, or a value that is no array: a text without blanks at its ends, parentheses and
arrows. -/
structure IsPlain (t : Text) : Prop where
  tidy : Tidy t
  flat : ∀ c ∈ t, isRound c = false
  arrow : ¬ ['=', '>'] <:+: t

/-- The keys, and the values that are no arrays. -/
abbrev Plain : Type := Subtype IsPlain

/-- A value: a text, or an array of values some of which have keys. -/
inductive Value where
  | text (t : Plain)
  | array (items : List (Option Plain × Value))

/-- A value with its key, given the arrow between them. -/
def entry (arrow : Text) (key : Option Plain) (value : Text) : Text :=
  key.elim value fun k => k.1 ++ (arrow ++ value)

/-- Further entries, each behind a separator. -/
def listed {α : Type} (arrow : Text) (f : α → Text) (items : List (Option Plain × α)) : Text :=
  items.flatMap fun p => ", " ++ entry arrow p.1 (f p.2)

namespace Value

@[elab_as_elim]
theorem induct {P : Value → Prop} (text : ∀ t, P (.text t))
    (array : ∀ items, (∀ p ∈ items, P p.2) → P (.array items)) (v : Value) : P v :=
  @Value.rec P (fun items => ∀ p ∈ items, P p.2) (fun p => P p.2) text array (forall_mem_nil _)
    (fun _ _ hp hitems => forall_mem_cons.mpr ⟨hp, hitems⟩) (fun _ _ hv => hv) v

theorem sizeOf_lt {p : Option Plain × Value} {items : List (Option Plain × Value)} (h : p ∈ items) :
    sizeOf p.2 < sizeOf (array items) := by
  have hmem := sizeOf_lt_of_mem h
  cases p
  simp only [Prod.mk.sizeOf_spec, array.sizeOf_spec] at *
  omega

/-- The value as it is written with long arrays. -/
def print : Value → Text
  | text t => t.1
  | array items => "array(" ++ (join ", " (items.map fun p => entry " => " p.1 p.2.print) ++ ")")
termination_by v => sizeOf v
decreasing_by exact sizeOf_lt ‹_›

/-- The value as a nested literal: a dictionary where an item has a key, and a list otherwise. -/
def literal : Value → Text
  | text t => t.1
  | array items =>
    let contents := join ", " (items.map fun p => entry ": " p.1 p.2.literal)
    if items.any (·.1.isSome) then "\x7b" ++ (contents ++ "\x7d") else "[" ++ (contents ++ "]")
termination_by v => sizeOf v
decreasing_by exact sizeOf_lt ‹_›

/-- How deep arrays are nested. -/
def depth : Value → Nat
  | text _ => 0
  | array items => (items.map fun p => p.2.depth).foldr max 0 + 1
termination_by v => sizeOf v
decreasing_by exact sizeOf_lt ‹_›

/-- The value after some rounds: arrays that are nested less deep are literals. -/
def after (k : Nat) : Value → Text
  | text t => t.1
  | array items =>
    if (array items).depth ≤ k then (array items).literal
    else "array(" ++ (join ", " (items.map fun p => entry " => " p.1 (p.2.after k)) ++ ")")
termination_by v => sizeOf v
decreasing_by exact sizeOf_lt ‹_›

theorem depth_lt {p : Option Plain × Value} {items : List (Option Plain × Value)} (h : p ∈ items) :
    p.2.depth < (array items).depth := by
  rw [depth, Nat.lt_succ_iff]
  exact le_max_of_le (mem_map_of_mem h) (Nat.le_refl _)

theorem exists_deep {items : List (Option Plain × Value)} {k : Nat}
    (h : ¬ (array items).depth ≤ k + 1) : ∃ p ∈ items, ¬ p.2.depth ≤ k := by
  rw [depth, Nat.succ_le_succ_iff] at h
  by_contra hnone
  push Not at hnone
  exact h (max_le_of_forall_le _ k (forall_mem_map.mpr hnone))

theorem after_of_le {v : Value} {k : Nat} (h : v.depth ≤ k) : v.after k = v.literal := by
  cases v with
  | text t => rw [after, literal]
  | array items => rw [after, if_pos h]

theorem after_zero (v : Value) : v.after 0 = v.print := by
  induction v using induct with
  | text t => rw [after, print]
  | array items ih =>
    rw [after, print, if_neg (by rw [depth]; omega), map_congr_left fun p hp => by rw [ih p hp]]

end Value

/-! ## Literals -/

variable {t u rest out subject : Text} {key : Option Plain} {pieces : List Text} {k : Nat}
    {c d : Char} {g : Text → Text}

theorem find?_isRound : t.find? isRound = none ↔ ∀ c ∈ t, isRound c = false := by simp

/-- The first parenthesis of an entry is the one of its value. -/
theorem find?_entry {arrow : Text} (harrow : arrow.find? isRound = none) (key : Option Plain)
    (t : Text) : (entry arrow key t).find? isRound = t.find? isRound := by
  cases key with
  | none => rfl
  | some key =>
    rw [entry, Option.elim, find?_append, find?_append, find?_isRound.mpr key.2.flat, harrow]
    rfl

theorem flat_entry (h : IsPlain t) {arrow : Text} (harrow : arrow.find? isRound = none)
    (key : Option Plain) : ∀ c ∈ entry arrow key t, isRound c = false := by
  rw [← find?_isRound, find?_entry harrow]
  exact find?_isRound.mpr h.flat

theorem flat_join (h : ∀ a ∈ pieces, ∀ c ∈ a, isRound c = false) : ∀ c ∈ join ", " pieces,
    isRound c = false := by
  intro c hc
  rcases mem_join hc with hc | ⟨a, ha, hc⟩
  · exact (by decide : ∀ c ∈ ", ".toList, isRound c = false) c hc
  · exact h a ha c hc

theorem isPlain_entry (h : IsPlain t) (key : Option Plain) : IsPlain (entry ": " key t) := by
  cases key with
  | none => exact h
  | some key =>
    refine ⟨key.2.tidy.append _ h.tidy, flat_entry h rfl (some key), fun hin => ?_⟩
    exact (infix_append_sep hin (by decide) (by decide)).elim key.2.arrow h.arrow

/-- Entries in brackets. -/
theorem isPlain_enclose (hc : c ∈ ['{', '[']) (hd : d ∈ ['}', ']']) (h : ∀ a ∈ pieces, IsPlain a) :
    IsPlain ([c] ++ (join ", " pieces ++ [d])) := by
  have hbrackets : ∀ x ∈ ['{', '['] ++ ['}', ']'], strip [x] = [x] ∧ isRound x = false ∧
      x ∉ ['=', '>'] := by decide
  obtain ⟨hcstrip, hcround, hcarrow⟩ := hbrackets c (mem_append_left _ hc)
  obtain ⟨hdstrip, hdround, hdarrow⟩ := hbrackets d (mem_append_right _ hd)
  refine ⟨.append ⟨cons_ne_nil _ _, hcstrip⟩ _ ⟨cons_ne_nil _ _, hdstrip⟩, ?_, fun hin => ?_⟩
  · refine forall_mem_append.mpr ⟨forall_mem_singleton.mpr hcround,
      forall_mem_append.mpr ⟨?_, forall_mem_singleton.mpr hdround⟩⟩
    exact flat_join fun a ha => (h a ha).flat
  · rcases infix_append_sep
      (a := []) hin (cons_ne_nil _ _) (forall_mem_singleton.mpr hcarrow) with hin | hin
    · cases infix_nil.mp hin
    · rw [← append_nil [d]] at hin
      rcases infix_append_sep hin (cons_ne_nil _ _)
        (forall_mem_singleton.mpr hdarrow) with hin | hin
      · rcases infix_of_infix_join hin (by decide) (by decide) with hin | ⟨a, ha, hin⟩
        · cases hin
        · exact (h a ha).arrow hin
      · cases infix_nil.mp hin

theorem Value.isPlain_literal (v : Value) : IsPlain v.literal := by
  induction v using induct with
  | text t => rw [literal]; exact t.2
  | array items ih =>
    have hentries : ∀ a ∈ items.map fun p => entry ": " p.1 p.2.literal, IsPlain a :=
      forall_mem_map.mpr fun p hp => isPlain_entry (ih p hp) p.1
    rw [literal]
    split <;> exact isPlain_enclose (by decide) (by decide) hentries

/-- What stands around an arrow. -/
def arrow : Pattern :=
  blanks ++ "=>" ++ blanks

/-- No arrow starts in a plain text behind a separator. -/
theorem arrow_skip {a : Text} (hlater : Rewritten arrow g subject rest out)
    (ha : ∀ c ∈ a, c ∉ ['=', '>']) (ht : IsPlain t) (hrest : rest.head? ≠ some '>') :
    Rewritten arrow g subject (a ++ t ++ rest) (a ++ t ++ out) := by
  have hpiece : ¬ ['=', '>'] <:+: a ++ t := by
    intro hin
    rcases a with - | ⟨x, a⟩
    · exact ht.arrow hin
    · rcases infix_append_sep (a := []) hin (cons_ne_nil _ _) ha with hin | hin
      · cases infix_nil.mp hin
      · exact ht.arrow hin
  refine hlater.skip fun front b hab hb s hs => ?_
  have hstays : ¬ ∀ c ∈ b, isBlank c = true := by
    intro hblank
    have hlast : b.getLast hb ∈ t.getLast? := by
      rw [← getLast?_append_of_ne_nil a ht.tidy.1, hab, getLast?_append_of_ne_nil _ hb,
        getLast?_eq_some_getLast hb]
      rfl
    have hend := (strip_eq_self_iff.mp ht.tidy.2).2 _ hlast
    rw [hblank _ (getLast_mem hb)] at hend
    cases hend
  refine matchAt_eq_none fun piece u hreads => ?_
  have hahead : s.ahead = piece ++ u.ahead := hreads.ahead_eq
  simp only [arrow, append_eq_seq, reads_seq_iff, blanks, many, reads_literal_iff,
    reads_chars_iff] at hreads
  obtain ⟨_, _, _, rfl, ⟨gap, _, _, rfl, ⟨hgap, -⟩, rfl, -⟩, -⟩ := hreads
  rw [hs, append_assoc, append_assoc] at hahead
  rcases append_eq_append_iff.mp hahead with ⟨w, rfl, -⟩ | ⟨w, rfl, hw⟩
  · exact hstays fun c hc => hgap c (mem_append_left w hc)
  · have hw : '=' :: '>' :: _ = w ++ rest := hw
    rcases w with - | ⟨x, - | ⟨y, w⟩⟩
    · exact hstays (by simpa using hgap)
    · obtain ⟨-, hw⟩ := cons.inj hw
      exact hrest (by rw [show rest = _ from hw.symm]; rfl)
    · obtain ⟨rfl, htail⟩ := cons.inj hw
      obtain ⟨rfl, -⟩ := cons.inj htail
      exact hpiece ⟨front ++ gap, w, by rw [hab]; simp⟩

section

variable (hlater : Rewritten arrow (fun _ => ": ") subject rest out)

include hlater

theorem arrow_found (hrest : ∀ c ∈ rest.head?, isBlank c = false) :
    Rewritten arrow (fun _ => ": ") subject (" => " ++ rest) (": " ++ out) := by
  intro s hahead
  have hfirst : first arrow some { s with captures := [] } =
      some (.past { s with captures := [] } " => " rest) := by
    have hparts : s.ahead = [' '] ++ ("=>" ++ ([' '] ++ rest)) := hahead
    rw [arrow, first_append, first_append]
    refine first_many hparts (by decide) (by rintro c ⟨⟩; rfl)
      (first_literal rfl (first_many rfl (by decide) hrest ?_))
    rw [State.past_past, State.past_past]
    rfl
  refine .found (m := ⟨subject, s, _⟩) (by rw [matchAt_eq_first, hfirst]; rfl) ?_ ?_ (hlater _ rfl)
  · simp [State.past]
  · simp only [State.past, hahead, length_append]
    exact Nat.lt_add_of_pos_left (by decide)

theorem arrow_entry {a : Text} (hrest : rest.head? ≠ some '>')
    (ha : ∀ c ∈ a, c ∉ ['=', '>']) (key : Option Plain) (h : IsPlain t) :
    Rewritten arrow (fun _ => ": ") subject (a ++ entry " => " key t ++ rest)
    (a ++ entry ": " key t ++ out) := by
  cases key with
  | none => exact arrow_skip hlater ha h hrest
  | some key =>
    have hvalue : Rewritten arrow (fun _ => ": ") subject (t ++ rest) (t ++ out) :=
      arrow_skip (a := []) hlater (forall_mem_nil _) h hrest
    have hhead : ∀ c ∈ (t ++ rest).head?, isBlank c = false := by
      rw [head?_append_of_ne_nil _ h.tidy.1]
      exact (strip_eq_self_iff.mp h.tidy.2).1
    have hall := arrow_skip (arrow_found hvalue hhead) ha key.2 (by simp)
    simpa [entry] using hall

end

variable {α : Type} {f : α → Text} {items : List (Option Plain × α)}

theorem join_entries (arrow : Text) (f : α → Text) (p : Option Plain × α)
    (items : List (Option Plain × α)) :
    join ", " ((p :: items).map fun p => entry arrow p.1 (f p.2)) = entry arrow p.1 (f p.2) ++
    listed arrow f items := by
  rw [map_cons, join_cons, flatMap_map]
  rfl

section

variable (h : ∀ p ∈ items, IsPlain (f p.2))

include h

theorem arrow_listed :
    Rewritten arrow (fun _ => ": ") subject (listed " => " f items) (listed ": " f items) ∧
      (listed " => " f items).head? ≠ some '>' := by
  induction items with
  | nil => exact ⟨.nil rfl, by simp [listed]⟩
  | cons p items ih =>
    obtain ⟨hp, hitems⟩ := forall_mem_cons.mp h
    obtain ⟨hlater, hrest⟩ := ih hitems
    exact ⟨arrow_entry hlater hrest (by decide) p.1 hp, by simp [listed]⟩

theorem includes_entries :
    includes (join ", " (items.map fun p => entry " => " p.1 (f p.2))) "=>" =
    items.any (·.1.isSome) := by
  rw [Bool.eq_iff_iff, includes_iff, any_eq_true]
  constructor
  · intro hin
    rcases infix_of_infix_join hin (by decide) (by decide) with hin | ⟨a, ha, hin⟩
    · cases hin
    · obtain ⟨p, hp, rfl⟩ := mem_map.mp ha
      refine ⟨p, hp, Option.isSome_iff_ne_none.mpr fun hnone => (h p hp).arrow ?_⟩
      rwa [hnone] at hin
  · rintro ⟨⟨key, v⟩, hp, hkey⟩
    obtain ⟨key, rfl⟩ := Option.isSome_iff_exists.mp hkey
    refine .trans ⟨key.1 ++ [' '], ' ' :: f v, ?_⟩ (infix_join _ (mem_map_of_mem hp))
    simp [entry]

/-- The contents of an array as its items say. -/
theorem collection_entries :
    collection (join ", " (items.map fun p => entry " => " p.1 (f p.2))) =
      if items.any (·.1.isSome) then "\x7b" ++
        (join ", " (items.map fun p => entry ": " p.1 (f p.2)) ++ "\x7d")
      else "[" ++ (join ", " (items.map fun p => entry ": " p.1 (f p.2)) ++ "]") := by
  rw [collection, includes_entries h]
  split
  next hkeys =>
    cases items with
    | nil => cases hkeys
    | cons p items =>
      obtain ⟨hp, hitems⟩ := forall_mem_cons.mp h
      obtain ⟨hlater, hrest⟩ := arrow_listed hitems
      have hall := arrow_entry (a := []) hlater hrest (forall_mem_nil _) p.1 hp
      rw [join_entries, join_entries, append_assoc]
      exact congrArg (fun t => _ ++ (t ++ _)) hall.replaceBy_eq
  next hkeys =>
    have hsame : ∀ p ∈ items, entry " => " p.1 (f p.2) = entry ": " p.1 (f p.2) := by
      intro p hp
      rw [not_eq_true, any_eq_false] at hkeys
      rw [Option.not_isSome_iff_eq_none.mp (hkeys p hp)]
      rfl
    rw [map_congr_left hsame, append_assoc]

/-! ## One round over a value -/

end

variable {s : State}

theorem matchAt_longArray (subject : Text) (s : State) : longArray.matchAt subject s =
    if s.isWordEdge then (field "array(" (except "()") true ')').matchAt subject s else none := by
  have hedge : first longArray some { s with captures := [] } =
      if s.isWordEdge then
        first (field "array(" (except "()") true ')') some { s with captures := [] }
      else none := by
    rw [longArray, field, first_append, first_append, first_append, first_append, first_append]
    rw [first, outcomes]
    show findSome? _ (if s.isWordEdge then _ else _) = _
    split
    · rw [List.findSome?_singleton]
      rfl
    · rfl
  rw [matchAt_eq_first, matchAt_eq_first, hedge]
  split <;> rfl

theorem matchAt_longArray_none (h : ∀ inner later, s.ahead = "array(" ++ (inner ++ ')' :: later) →
    ∃ c ∈ inner, c = '(' ∨ c = ')') : longArray.matchAt subject s = none := by
  rw [matchAt_longArray, matchAt_field_none, ite_self]
  intro inner later hahead
  obtain ⟨c, hc, hround⟩ := h inner later hahead
  exact ⟨c, hc, by rcases hround with rfl | rfl <;> rfl⟩

/-- No array starts in a text without parentheses, unless its end and what follows belong to one. -/
theorem longArray_skip {a b w : Text} (hopen : '(' ∉ w)
    (hends : (∀ c ∈ w.getLast?, c ∉ "array(".toList) ∨ ∀ c ∈ rest.head?, c ∉ "array(".toList)
    (hab : w = a ++ b) (hb : b ≠ []) (hs : s.ahead = b ++ rest) :
    longArray.matchAt subject s = none := by
  refine matchAt_longArray_none fun inner later hahead => ?_
  rw [hs] at hahead
  rcases append_eq_append_iff.mp hahead with ⟨more, hmore, hrest⟩ | ⟨more, rfl, -⟩
  · cases more with
    | nil => exact absurd (by rw [hab, ← append_nil b, ← hmore]; simp) hopen
    | cons x more =>
      rcases hends with hlast | hhead
      · refine absurd ?_ (hlast (b.getLast hb) ?_)
        · rw [hmore]
          exact mem_append_left _ (getLast_mem hb)
        · rw [hab, getLast?_append_of_ne_nil _ hb, getLast?_eq_some_getLast hb]
          rfl
      · refine absurd ?_ (hhead x (by rw [hrest]; rfl))
        rw [hmore]
        simp
  · exact absurd (by rw [hab]; simp) hopen

/-- One more round turns the first text into the second one wherever no word ends in front of it. -/
def Advances (subject before after : Text) : Prop :=
  ∀ (s : State) (rest out : Text), s.before.any isWord = false → s.ahead = before ++ rest →
    (∀ c ∈ rest.head?, c ∉ "array(".toList) → Rewritten longArray collection subject rest out →
      Rewrites longArray collection subject s (after ++ out)

theorem advances_plain (h : IsPlain t) : Advances subject t t := fun _ _ _ _ hahead hrest hlater =>
  .skip hahead (hlater _ rfl) fun _ _ hab hb =>
    longArray_skip (fun hmem => by cases h.flat _ hmem) (.inr hrest) hab hb rfl

/-- What stands in front of a text ends no word and starts no array. -/
theorem Advances.behind {before after w : Text} (h : Advances subject before after)
    (hopen : '(' ∉ w) (hne : w ≠ [])
    (hlast : ∀ c ∈ w.getLast?, isWord c = false ∧ c ∉ "array(".toList)
    (hrest : ∀ c ∈ rest.head?, c ∉ "array(".toList)
    (hlater : Rewritten longArray collection subject rest out) :
    Rewritten longArray collection subject (w ++ (before ++ rest)) (w ++ (after ++ out)) := by
  intro s hahead
  refine .skip hahead (h _ _ _ ?_ rfl hrest hlater) fun a b hab hb =>
    longArray_skip hopen (.inl fun c hc => (hlast c hc).2) hab hb rfl
  have hend : w.getLast? = some (w.getLast hne) := getLast?_eq_some_getLast hne
  simp [State.past, hend, (hlast _ hend).1]

theorem Advances.entry {before after : Text} (h : Advances subject before after)
    (key : Option Plain) : Advances subject (entry " => " key before) (entry " => " key after) := by
  cases key with
  | none => exact h
  | some key =>
    intro s rest out _ hahead hrest hlater
    have hopen : '(' ∉ key.1 ++ " => " := by
      simpa using fun hmem => by cases key.2.flat _ hmem
    have hall :=
      h.behind hopen (by simp) (by simp; decide) hrest hlater s
        (by rw [hahead]; simp [ToPython.entry])
    simpa [ToPython.entry] using hall

theorem head_listed (rest : Text) : ∀ c ∈ (listed " => " f items ++ ')' :: rest).head?,
    c ∉ "array(".toList := by
  cases items with
  | nil =>
    rintro c ⟨⟩
    decide
  | cons p items =>
    rintro c ⟨⟩
    decide

theorem rewritten_listed {g : α → Text} (h : ∀ p ∈ items, Advances subject (f p.2) (g p.2))
    (hlater : Rewritten longArray collection subject rest out) :
    Rewritten longArray collection subject (listed " => " f items ++ ')' :: rest)
    (listed " => " g items ++ ')' :: out) := by
  induction items with
  | nil => exact hlater.skip fun a b hab hb s hs =>
      longArray_skip (w := [')']) (by decide) (.inl (by decide)) hab hb hs
  | cons p items ih =>
    obtain ⟨hp, hitems⟩ := forall_mem_cons.mp h
    have hall :=
      (hp.entry p.1).behind (w := ", ") (by decide) (by decide) (by decide) (head_listed rest)
        (ih hitems)
    simpa [listed] using hall

/-- The first parenthesis of a list is the first one of an entry. -/
theorem find?_join (pieces : List Text) :
    (join ", " pieces).find? isRound = pieces.findSome? (·.find? isRound) := by
  cases pieces with
  | nil => rfl
  | cons first pieces =>
    rw [join_cons, find?_append, find?_flatMap, findSome?_cons]
    cases first.find? isRound <;> rfl

/-- No array starts where another one starts inside before it ends. -/
theorem longArray_unfinished {a b inner : Text} (hinner : inner.find? isRound = some '(')
    (hab : "array(" = a ++ b)
    (hb : b ≠ []) (hs : s.ahead = b ++ inner) : longArray.matchAt subject s = none := by
  refine matchAt_longArray_none fun closed later hahead => ?_
  rw [hs] at hahead
  cases a with
  | nil =>
    obtain rfl : "array(" = b := hab
    rw [append_cancel_left hahead, find?_append] at hinner
    by_contra hnone
    push Not at hnone
    rw [find?_eq_none.mpr fun c hc => by simp [isRound, hnone c hc]] at hinner
    cases hinner
  | cons c a =>
    have hshort : ∀ b ∈ "rray(".toList.tails, b ≠ [] → ¬ b.take 2 <+: "array(".toList := by decide
    refine absurd ?_ (hshort b ((mem_tails _ _).mpr ⟨a, (cons.inj hab).2.symm⟩) hb)
    have htake := take_prefix 2 b
    refine prefix_of_prefix_length_le (htake.trans ⟨inner, hahead⟩) (prefix_append _ _) ?_
    exact Nat.le_trans (length_take_le 2 b) (by decide)

namespace Value

theorem find?_after (v : Value) (k : Nat) :
    (v.after k).find? isRound = if v.depth ≤ k then none else some '(' := by
  split
  next h =>
    rw [after_of_le h]
    exact find?_isRound.mpr v.isPlain_literal.flat
  next h =>
    cases v with
    | text t => exact absurd (by rw [depth]; exact Nat.zero_le k) h
    | array items =>
      rw [after, if_neg h]
      rfl

/-- An array in an array starts before the outer one ends. -/
theorem find?_entries {items : List (Option Plain × Value)} (h : ¬ (array items).depth ≤ k + 1)
    (rest : Text) :
    (join ", " (items.map fun p => entry " => " p.1 (p.2.after k)) ++ rest).find? isRound =
    some '(' := by
  obtain ⟨p, hp, hdeep⟩ := exists_deep h
  rw [find?_append, find?_join, findSome?_map]
  cases hfound : items.findSome? ((·.find? isRound) ∘ fun p => entry " => " p.1 (p.2.after k)) with
  | none =>
    have hnone := findSome?_eq_none_iff.mp hfound p hp
    rw [Function.comp_apply, find?_entry rfl, find?_after, if_neg hdeep] at hnone
    cases hnone
  | some c =>
    obtain ⟨q, -, hq⟩ := exists_of_findSome?_eq_some hfound
    rw [Function.comp_apply, find?_entry rfl, find?_after] at hq
    split at hq
    · cases hq
    · exact hq.symm

/-- A round takes a value one level further. -/
theorem advances_after (v : Value) (k : Nat) : Advances subject (v.after k) (v.after (k + 1)) := by
  induction v using induct with
  | text t =>
    rw [after, after]
    exact advances_plain t.2
  | array items ih =>
    by_cases hdone : (array items).depth ≤ k
    · rw [after_of_le hdone, after_of_le (Nat.le_succ_of_le hdone)]
      exact advances_plain (isPlain_literal _)
    intro s rest out hbefore hahead hrest hlater
    rw [after, if_neg hdone, append_assoc, append_assoc] at hahead
    have hahead : s.ahead = "array(" ++ (_ ++ ')' :: rest) := hahead
    by_cases hnext : (array items).depth ≤ k + 1
    · have hitems : ∀ p ∈ items, entry " => " p.1 (p.2.after k) = entry " => " p.1 p.2.literal :=
        fun p hp => by
        rw [after_of_le (Nat.le_of_lt_succ (Nat.lt_of_lt_of_le (depth_lt hp) hnext))]
      rw [map_congr_left hitems] at hahead
      have hflat : ∀ c ∈ join ", " (items.map fun p => entry " => " p.1 p.2.literal),
          isRound c = false :=
        flat_join (forall_mem_map.mpr fun p _ => flat_entry p.2.isPlain_literal rfl p.1)
      obtain ⟨m, hm, hgroup, hlast, hmoved⟩ :=
        @matchAt_field (except "()") true ')' _ _ rest s subject hahead
        (fun c hc => by simpa [except, isRound] using hflat c hc)
        (fun hmem => by cases hflat _ hmem) fun _ => rfl
      rw [after_of_le hnext, literal, ← collection_entries fun p _ => p.2.isPlain_literal, ← hgroup]
      refine .found ?_ hmoved ?_ (hlater _ hlast)
      · have hedge : s.isWordEdge = true := by
          rw [State.isWordEdge, hbefore, hahead]
          rfl
        rw [matchAt_longArray, if_pos hedge, hm]
      · rw [hlast, hahead]
        simp only [length_append, length_cons]
        omega
    · cases items with
      | nil =>
        rw [depth] at hnext
        exact absurd (Nat.le_add_left 1 k) hnext
      | cons p items =>
        obtain ⟨hp, hitems⟩ := forall_mem_cons.mp ih
        have hfirst := find?_entries hnext (')' :: rest)
        have hinner :=
          hp.entry p.1 (s.past "array(" _) _ _ rfl rfl (head_listed rest)
            (rewritten_listed hitems hlater)
        rw [join_entries " => " (after k), append_assoc] at hahead hfirst
        rw [after, if_neg hnext, join_entries " => " (after (k + 1)), append_assoc, append_assoc,
          append_assoc]
        exact .skip hahead hinner fun a b hab hb => longArray_unfinished hfirst hab hb rfl

theorem round_after (v : Value) (k : Nat) : round (v.after k) = v.after (k + 1) := by
  have hall :=
    @advances_after (v.after k) v k (.start (v.after k)) [] [] rfl (append_nil _).symm (by simp)
      (.nil rfl) (v.after k) (Nat.le_refl _)
  rwa [append_nil] at hall

theorem iterate_round (v : Value) (k : Nat) : round^[k] v.print = v.after k := by
  induction k with
  | zero => exact v.after_zero.symm
  | succ k ih => rw [Function.iterate_succ_apply', ih, round_after]

/-- A text without arrays is left as it is, so the rounds that come after the last one would change
nothing. -/
theorem longArrays_print (v : Value) : longArrays v.print = v.literal := by
  obtain ⟨n, hn, -, hend⟩ := longArraysFrom_rounds (Nat.le_refl (v.print.count '('))
  rw [iterate_round] at hn hend
  have hfixed : ∀ j, v.after (n + j) = v.after n := by
    intro j
    induction j with
    | zero => rfl
    | succ j ih =>
      rw [← Nat.add_assoc, ← round_after, ih]
      exact replaceBy_eq_self_of_not_of fun m hm => by simp [occursIn_iff.mpr ⟨m, hm⟩] at hend
  rw [longArrays, hn, ← hfixed v.depth, after_of_le (Nat.le_add_left _ _)]

end Value

/-- Every round lowers the number of opening parentheses, the rounds end with a text without arrays,
and a nested array becomes the nested literal in which every array is a dictionary or a list as its
own items say. -/
theorem longArrays_normal :
    (∀ t, longArray.occursIn t = true → (round t).count '(' < t.count '(') ∧
      (∀ t, ∃ n, longArrays t = round^[n] t ∧ (∀ k < n, longArray.occursIn (round^[k] t) = true) ∧
        longArray.occursIn (longArrays t) = false) ∧
      ∀ v : Value, longArrays v.print = v.literal := by
  refine ⟨fun t => count_round_lt, fun t => ?_, Value.longArrays_print⟩
  obtain ⟨n, hn, hbefore, hend⟩ := longArraysFrom_rounds (Nat.le_refl (t.count '('))
  exact ⟨n, hn, hbefore, by rw [longArrays, hn]; exact hend⟩

/-- A list in a list takes a second round. -/
theorem longArrays_normal_nested : longArray.occursIn "array(array(1), 2)" = true ∧
    (round "array(array(1), 2)").count '(' < "array(array(1), 2)".toList.count '(' ∧
      longArray.occursIn (longArrays "array(array(1), 2)") = false := by
  have hoccurs : longArray.occursIn "array(array(1), 2)" = true := by decide +kernel
  obtain ⟨n, -, -, hend⟩ := longArrays_normal.2.1 "array(array(1), 2)"
  exact ⟨hoccurs, longArrays_normal.1 _ hoccurs, hend⟩

end CodeConverter.Expression.ToPython

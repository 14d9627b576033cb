import CodeConverter.Proofs.Text.Part

/-!
# Runs of characters

A text that starts with a run of characters of a class followed by another character is taken apart
in one way only. Word characters are not blank.
-/

namespace CodeConverter.Text

open List

/-- The code points of blanks. -/
def blankCodes : List Nat :=
  [0x09, 0x0a, 0x0b, 0x0c, 0x0d, 0x1c, 0x1d, 0x1e, 0x1f, 0x20, 0x85, 0xa0, 0x1680, 0x2000, 0x2001,
    0x2002, 0x2003,
    0x2004, 0x2005, 0x2006, 0x2007, 0x2008, 0x2009, 0x200a, 0x2028, 0x2029, 0x202f, 0x205f, 0x3000]

variable {c : Char} {word piece gap t : Text}

theorem mem_blankCodes (h : isBlank c = true) : c.toNat ∈ blankCodes := by
  simp only [isBlank, Bool.or_eq_true, Bool.and_eq_true, decide_eq_true_eq] at h
  simp only [blankCodes, mem_cons, not_mem_nil, or_false]
  omega

theorem isWord_eq_false_of_isBlank (h : isBlank c = true) : isWord c = false := by
  have hall : ∀ code ∈ blankCodes, isWord (Char.ofNat code) = false := by decide +kernel
  rw [← Char.ofNat_toNat c]
  exact hall _ (mem_blankCodes h)

theorem isBlank_eq_false_of_isWord (h : isWord c = true) : isBlank c = false := by
  rw [Bool.eq_false_iff]
  intro hblank
  rw [isWord_eq_false_of_isBlank hblank] at h
  cases h

variable {set : Char → Bool} {a b u v : Text} {x y : Char}

section

variable (ha : ∀ c ∈ a, set c = true)

include ha

theorem run_eq_of_append (hb : ∀ c ∈ b, set c = true) (hx : set x = false)
    (hy : set y = false) (h : a ++ x :: u = b ++ y :: v) : a = b ∧ x = y ∧ u = v := by
  induction a generalizing b with
  | nil =>
    cases b with
    | nil => exact ⟨rfl, cons.inj h⟩
    | cons c b =>
      have hc := hb c mem_cons_self
      rw [← (cons.inj h).1, hx] at hc
      cases hc
  | cons c a ih =>
    cases b with
    | nil =>
      have hc := ha c mem_cons_self
      rw [(cons.inj h).1, hy] at hc
      cases hc
    | cons d b =>
      obtain ⟨rfl, htail⟩ := cons.inj h
      obtain ⟨rfl, hxy, huv⟩ := ih (fun c hc => ha c (mem_cons_of_mem _ hc))
        (fun c hc => hb c (mem_cons_of_mem _ hc)) htail
      exact ⟨rfl, hxy, huv⟩

theorem run_eq_nil (hx : set x = false) (h : x :: v = a ++ u) : a = [] := by
  cases a with
  | nil => rfl
  | cons c a =>
    have hc := ha c mem_cons_self
    rw [← (cons.inj h).1, hx] at hc
    cases hc

end

/-- A text has one longest run of a set. -/
theorem run_eq_of_heads (ha : ∀ c ∈ a, set c = true) (hb : ∀ c ∈ b, set c = true)
    (hu : ∀ c ∈ u.head?, set c = false)
    (hv : ∀ c ∈ v.head?, set c = false) (h : a ++ u = b ++ v) : a = b ∧ u = v := by
  cases u with
  | nil =>
    cases v with
    | nil => simpa using h
    | cons y v =>
      rw [append_nil] at h
      have hy := ha y (by rw [h]; simp)
      rw [hv y rfl] at hy
      cases hy
  | cons x u =>
    cases v with
    | nil =>
      rw [append_nil] at h
      have hx := hb x (by rw [← h]; simp)
      rw [hu x rfl] at hx
      cases hx
    | cons y v =>
      obtain ⟨hab, hxy, huv⟩ := run_eq_of_append ha hb (hu x rfl) (hv y rfl) h
      exact ⟨hab, by rw [hxy, huv]⟩

theorem dropEndWhile_concat (t : Text) (hx : set x = true) :
    dropEndWhile set (t ++ [x]) = dropEndWhile set t := by
  rw [dropEndWhile, dropEndWhile, reverse_append, reverse_singleton, singleton_append,
    dropWhile_cons_of_pos hx]

theorem dropEndWhile_of_last (hlast : t.getLast? = some x) (hx : set x = false) :
    dropEndWhile set t = t := by
  obtain ⟨front, rfl⟩ := getLast?_eq_some_iff.mp hlast
  rw [dropEndWhile, reverse_append, reverse_singleton, singleton_append,
    dropWhile_cons_of_neg (by rw [hx]; exact Bool.false_ne_true), reverse_cons, reverse_reverse]

theorem strip_ends (t : Text) :
    (∀ c ∈ (strip t).head?, isBlank c = false) ∧ ∀ c ∈ (strip t).getLast?, isBlank c = false := by
  constructor
  · intro c hc
    rw [strip] at hc
    have hstart : c ∈ (stripStart t).head? := by
      obtain ⟨rest, hrest⟩ := stripEnd_isPrefix (stripStart t)
      obtain ⟨tail, htail⟩ := head?_eq_some_iff.mp hc
      rw [← hrest, htail]
      rfl
    have hnot := head?_dropWhile_not isBlank t
    rw [show (t.dropWhile isBlank).head? = some c from hstart] at hnot
    simpa using hnot
  · intro c hc
    have hlast : ((stripStart t).reverse.dropWhile isBlank).head? = some c := by
      rw [← getLast?_reverse]
      exact hc
    have hnot := head?_dropWhile_not isBlank (stripStart t).reverse
    rw [hlast] at hnot
    simpa using hnot

/-- A text is stripped exactly if no blank is at its ends. -/
theorem strip_eq_self_iff : strip t = t ↔ (∀ c ∈ t.head?, isBlank c = false) ∧ ∀ c ∈ t.getLast?,
    isBlank c = false := by
  constructor
  · intro h
    rw [← h]
    exact strip_ends t
  · rintro ⟨hhead, hlast⟩
    cases t with
    | nil => rfl
    | cons c t =>
      have hstart : stripStart (c :: t) = c :: t := by
        rw [stripStart, dropWhile_cons_of_neg]
        rw [hhead c rfl]
        exact Bool.false_ne_true
      rw [strip, hstart, stripEnd, dropEndWhile]
      rcases eq_nil_or_concat' (c :: t) with hnil | ⟨front, d, hfront⟩
      · cases hnil
      · have hd : isBlank d = false := hlast d (by rw [hfront, getLast?_concat]; rfl)
        rw [hfront, reverse_append, reverse_singleton, singleton_append,
          dropWhile_cons_of_neg (by rw [hd]; exact Bool.false_ne_true), reverse_cons,
          reverse_reverse]

theorem strip_append {lead : Text} (hlead : ∀ c ∈ lead, isBlank c = true) (ht : strip t = t)
    (hgap : ∀ c ∈ gap, isBlank c = true) : strip (lead ++ (t ++ gap)) = t := by
  by_cases hne : t = []
  · subst hne
    exact strip_eq_nil_iff.mpr (forall_mem_append.mpr ⟨hlead, hgap⟩)
  obtain ⟨hhead, hlast⟩ := strip_eq_self_iff.mp ht
  have hstart : stripStart (lead ++ (t ++ gap)) = t ++ gap := by
    obtain ⟨c, rest, rfl⟩ := exists_cons_of_ne_nil hne
    rw [stripStart, dropWhile_append_of_pos hlead, cons_append, dropWhile_cons_of_neg]
    rw [hhead c rfl]
    exact Bool.false_ne_true
  obtain ⟨front, d, rfl⟩ := (eq_nil_or_concat' t).resolve_left hne
  have hd : isBlank d = false := hlast d (by rw [getLast?_concat]; rfl)
  rw [strip, hstart, stripEnd, dropEndWhile, reverse_append,
    dropWhile_append_of_pos fun c hc => hgap c (mem_reverse.mp hc), reverse_append,
    reverse_singleton, singleton_append,
    dropWhile_cons_of_neg (by rw [hd]; exact Bool.false_ne_true), reverse_cons, reverse_reverse]

theorem strip_append_blank (hgap : ∀ c ∈ gap, isBlank c = true) : strip (t ++ gap) = strip t := by
  obtain ⟨lead, trail, hparts, hlead, htrail⟩ := strip_parts t
  have hblank : ∀ c ∈ trail ++ gap, isBlank c = true := forall_mem_append.mpr ⟨htrail, hgap⟩
  have hstrip : strip (strip t) = strip t := strip_eq_self_iff.mpr (strip_ends t)
  have hall := strip_append hlead hstrip hblank
  rw [← append_assoc, ← append_assoc, ← hparts] at hall
  exact hall

/-- A text that is not empty and has no blank at its ends. -/
def Tidy (t : Text) : Prop :=
  t ≠ [] ∧ strip t = t

theorem Tidy.append (h : Tidy t) (gap : Text) (hu : Tidy u) : Tidy (t ++ (gap ++ u)) := by
  refine ⟨by simp [h.1], strip_eq_self_iff.mpr ⟨fun d hd => ?_, fun d hd => ?_⟩⟩
  · rw [head?_append_of_ne_nil _ h.1] at hd
    exact (strip_eq_self_iff.mp h.2).1 d hd
  · rw [← append_assoc, getLast?_append_of_ne_nil _ hu.1] at hd
    exact (strip_eq_self_iff.mp hu.2).2 d hd

/-- Only what stands around a stripped text is stripped. -/
theorem strip_around (ht : strip t = t) (hne : t ≠ []) (a u : Text) :
    strip (a ++ (t ++ u)) = stripStart a ++ (t ++ stripEnd u) := by
  obtain ⟨hhead, hlast⟩ := strip_eq_self_iff.mp ht
  obtain ⟨gap, hu, hgap⟩ := dropEndWhile_parts isBlank u
  have hstrip : strip (stripStart a ++ (t ++ stripEnd u)) = stripStart a ++ (t ++ stripEnd u) := by
    refine strip_eq_self_iff.mpr ⟨fun c hc => ?_, fun c hc => ?_⟩
    · rw [head?_append, Option.mem_def, Option.or_eq_some_iff, head?_append_of_ne_nil _ hne] at hc
      rcases hc with hc | ⟨-, hc⟩
      · have hnot := head?_dropWhile_not isBlank a
        rw [show (a.dropWhile isBlank).head? = some c from hc] at hnot
        simpa using hnot
      · exact hhead c hc
    · rw [← append_assoc, getLast?_append, Option.mem_def, Option.or_eq_some_iff,
        getLast?_append_of_ne_nil _ hne] at hc
      rcases hc with hc | ⟨-, hc⟩
      · have hnot := head?_dropWhile_not isBlank u.reverse
        rw [stripEnd, dropEndWhile, getLast?_reverse] at hc
        rw [hc] at hnot
        simpa using hnot
      · exact hlast c hc
  have hparts :
      a ++ (t ++ u) = a.takeWhile isBlank ++ (stripStart a ++ (t ++ stripEnd u) ++ gap) := by
    have ha : a.takeWhile isBlank ++ stripStart a = a := takeWhile_append_dropWhile
    rw [append_assoc, append_assoc, ← append_assoc (a.takeWhile isBlank), ha]
    exact congrArg (fun v => a ++ (t ++ v)) hu
  rw [hparts]
  exact strip_append (fun c hc => all_eq_true.mp all_takeWhile c hc) hstrip hgap

end CodeConverter.Text

import CodeConverter.Proofs.Argument

/-!
# Names, calls and lists

The parts of programs that are spelled alike in many languages. A list of entries without commas,
brackets and quotes is split into the entries it was joined from.
-/

namespace CodeConverter.Program

open Text List Bool

/-- A name: a nonempty run of word characters. -/
def IsName (t : Text) : Prop :=
  t ≠ [] ∧ ∀ c ∈ t, isWord c = true

instance (t : Text) : Decidable (IsName t) :=
  inferInstanceAs (Decidable (t ≠ [] ∧ ∀ c ∈ t, isWord c = true))

/-- A character that identifiers have beside word characters in some language: a sign of ASCII, or a
mark beyond it, such as an accent that combines with the letter before it. -/
def isMark (c : Char) : Bool :=
  !isWord c && (c ∈ ['$', '@', '\\'] || 128 ≤ c.toNat && !isBlank c)

/-- An identifier of some language: a nonempty run of word characters and marks. -/
def IsIdentifier (t : Text) : Prop :=
  t ≠ [] ∧ ∀ c ∈ t, (isWord c || isMark c) = true

instance (t : Text) : Decidable (IsIdentifier t) :=
  inferInstanceAs (Decidable (t ≠ [] ∧ ∀ c ∈ t, (isWord c || isMark c) = true))

/-- A call with its arguments. -/
def callText (name arguments : Text) : Text :=
  name ++ ('(' :: (arguments ++ ")"))

/-- An entry of a list: not blank at its ends, and no character separates, nests or quotes. -/
structure IsEntry (t : Text) : Prop where
  nonempty : t ≠ []
  stripped : strip t = t
  plain : ∀ c ∈ t, c ≠ ',' ∧ depthChange c = 0 ∧ Literal.isQuote c = false

variable {t rest : Text} {entries : List Text} {c d : Char}

theorem isWord_eq_false_of_isMark (h : isMark c = true) : isWord c = false := by
  rw [isMark, and_eq_true, not_eq_true'] at h
  exact h.1

theorem isBlank_eq_false_of_isMark (h : isMark c = true) : isBlank c = false := by
  rw [isMark, and_eq_true, or_eq_true, decide_eq_true_eq, and_eq_true,
    not_eq_true' (b := isBlank c)] at h
  rcases h.2 with hsign | hbeyond
  · have hall : ∀ d ∈ ['$', '@', '\\'], isBlank d = false := by decide
    exact hall c hsign
  · exact hbeyond.2

namespace IsIdentifier

theorem not_mem (h : IsIdentifier t) (hd : (isWord d || isMark d) = false) : d ∉ t := by
  intro hmem
  rw [h.2 d hmem] at hd
  cases hd

theorem ne (h : IsIdentifier t) (hc : c ∈ t) (hd : (isWord d || isMark d) = false) : c ≠ d := by
  rintro rfl
  exact h.not_mem hd hc

theorem not_blank (h : IsIdentifier t) : ∀ c ∈ t, isBlank c = false := by
  intro c hc
  rcases or_eq_true_iff.mp (h.2 c hc) with hword | hmark
  · exact isBlank_eq_false_of_isWord hword
  · exact isBlank_eq_false_of_isMark hmark

theorem stripped (h : IsIdentifier t) : strip t = t :=
  strip_eq_self_iff.mpr ⟨fun c hc => h.not_blank c (mem_of_mem_head? hc), fun c hc =>
    h.not_blank c (mem_of_mem_getLast? hc)⟩

theorem head_not_blank (h : IsIdentifier t) : ∀ c ∈ (t ++ rest).head?, isBlank c = false := by
  intro c hc
  rw [head?_append_of_ne_nil _ h.1] at hc
  exact h.not_blank c (mem_of_mem_head? hc)

theorem isEntry (h : IsIdentifier t) : IsEntry t where
  nonempty := h.1
  stripped := h.stripped
  plain := by
    intro c hc
    refine ⟨h.ne hc rfl, ?_, ?_⟩
    · simp [depthChange, isOpening, isClosing, h.ne hc (d := '(') rfl, h.ne hc (d := '[') rfl,
        h.ne hc (d := '{') rfl,
        h.ne hc (d := ')') rfl, h.ne hc (d := ']') rfl, h.ne hc (d := '}') rfl]
    · simp [Literal.isQuote, h.ne hc (d := '\x27') rfl, h.ne hc (d := '\x22') rfl,
        h.ne hc (d := '`') rfl]

end IsIdentifier

namespace IsName

theorem isIdentifier (h : IsName t) : IsIdentifier t :=
  ⟨h.1, fun c hc => by rw [h.2 c hc]; rfl⟩

theorem not_mem (h : IsName t) (hd : isWord d = false) : d ∉ t := by
  intro hmem
  rw [h.2 d hmem] at hd
  cases hd

theorem stripped (h : IsName t) : strip t = t :=
  h.isIdentifier.stripped

theorem head_not_blank (h : IsName t) : ∀ c ∈ (t ++ rest).head?, isBlank c = false :=
  h.isIdentifier.head_not_blank

end IsName

theorem isName_decimal (n : Nat) : IsName (decimal n) :=
  ⟨Nat.toDigits_ne_nil, fun _ hc => isWord_of_isAlphanum (by
    simp [Char.isAlphanum, Nat.isDigit_of_mem_toDigits (by decide) (by decide) hc])⟩

theorem not_mem_join_names (h : ∀ name ∈ entries, IsIdentifier name)
    (hd : (isWord d || isMark d) = false := by decide)
    (hcomma : d ≠ ',' := by decide) (hblank : d ≠ ' ' := by decide) : d ∉ join ", " entries := by
  intro hmem
  rcases mem_join hmem with hsep | ⟨name, hname, hin⟩
  · simp [hcomma, hblank] at hsep
  · exact (h name hname).not_mem hd hin

/-- A list is split into its entries. -/
theorem splitArguments_entries (h : ∀ entry ∈ entries, IsEntry entry) :
    splitArguments (join ", " entries) = entries :=
  splitArguments_join (fun a ha =>
    ⟨(h a ha).nonempty, (h a ha).stripped, (unseparated_plain (h a ha).plain).1⟩)
    fun a ha => (unseparated_plain (h a (mem_of_mem_dropLast ha)).plain).2

end CodeConverter.Program

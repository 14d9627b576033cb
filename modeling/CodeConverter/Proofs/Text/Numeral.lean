import CodeConverter.Loop
import CodeConverter.Proofs.Pattern.Found
import CodeConverter.Proofs.Text.Part

/-!
# Numerals within the limit

A number below ten to the power of the limit is written, and what was written is read back. A run
of digits that is not longer than the limit is read.
-/

namespace CodeConverter.Text

open List Bool Pattern

variable {c : Char} {n : Nat} {t digits : Text} {fails : Fault → Prop}

theorem digitValue?_lt_ten (h : digitValue? c = some n) : n < 10 := by
  simp only [digitValue?] at h
  split at h
  · split at h
    · rename_i hdigit
      obtain rfl : c.toNat - 0x30 = n := by simpa using h
      simp only [Char.isDigit, and_eq_true, decide_eq_true_eq, UInt32.le_iff_toNat_le] at hdigit
      have hle : c.toNat ≤ 57 := hdigit.2
      omega
    · cases h
  · obtain ⟨base, hbase, rfl⟩ := Option.map_eq_some_iff.mp h
    have hrange := find?_some hbase
    simp only [and_eq_true, decide_eq_true_eq] at hrange
    omega

theorem isDigit_eq_false_of_isBlank (h : isBlank c = true) : isDigit c = false := by
  simp only [isBlank, or_eq_true, and_eq_true, decide_eq_true_eq] at h
  simp only [isDigit, digitValue?]
  split
  · have hdigit : c.isDigit = false := by
      simp only [Char.isDigit, and_eq_false_iff, decide_eq_false_iff_not, ge_iff_le,
        UInt32.le_iff_toNat_le]
      show ¬ 48 ≤ c.toNat ∨ ¬ c.toNat ≤ 57
      omega
    rw [hdigit]
    rfl
  · have hblanks :
      ∀ n ∈ [0x85, 0xa0, 0x1680, 0x2000, 0x2001, 0x2002, 0x2003, 0x2004, 0x2005, 0x2006,
      0x2007, 0x2008,
        0x2009, 0x200a, 0x2028, 0x2029, 0x202f, 0x205f, 0x3000], ∀ base ∈ digitZeros,
        ¬ (base ≤ n ∧ n < base + 10) := by
      decide
    have hmem := hblanks c.toNat (by simp only [mem_cons, not_mem_nil]; omega)
    rw [Option.isSome_map, Option.isSome_eq_false_iff, Option.isNone_iff_eq_none, find?_eq_none]
    intro base hbase
    simpa using hmem base hbase

theorem digitValue?_of_isDigit (h : c.isDigit = true) :
    digitValue? c = some (c.toNat - '0'.toNat) := by
  have hsmall : c.toNat < 0x80 := by
    simp only [Char.isDigit, and_eq_true, decide_eq_true_eq, UInt32.le_iff_toNat_le] at h
    have hle : c.toNat ≤ 57 := h.2
    omega
  rw [digitValue?, if_pos hsmall, if_pos h]
  rfl

/-- How many numerals of `n` digits there are. -/
def numerals : Nat → Nat
  | 0 => 1
  | n + 1 => numerals n * 10

/-- The least number with more digits than the limit. -/
def capacity : Nat := numerals digitLimit

theorem numerals_pred (h : 0 < n) : numerals n = numerals (n - 1) * 10 := by
  cases n with
  | zero => exact absurd h (Nat.lt_irrefl 0)
  | succ n => rfl

theorem capacity_eq : capacity = numerals (digitLimit - 1) * 10 :=
  numerals_pred (by decide)

theorem numerals_le {i j : Nat} (h : i ≤ j) : numerals i ≤ numerals j := by
  induction h with
  | refl => exact Nat.le_refl _
  | step _ ih =>
    simp only [numerals]
    omega

theorem foldl_digits_lt (n k : Nat) (hn : n < numerals k) :
    t.foldl (fun n c => n * 10 + (digitValue? c).getD 0) n < numerals (k + t.length) := by
  induction t generalizing n k with
  | nil => simpa using hn
  | cons c t ih =>
    have hdigit : (digitValue? c).getD 0 < 10 := by
      cases hc : digitValue? c with
      | none => simp
      | some d => simpa using digitValue?_lt_ten hc
    have hstep : n * 10 + (digitValue? c).getD 0 < numerals (k + 1) := by
      show n * 10 + (digitValue? c).getD 0 < numerals k * 10
      omega
    rw [foldl_cons, length_cons, Nat.add_comm t.length 1, ← Nat.add_assoc]
    exact ih _ _ hstep

theorem natOfDigits_lt (t : Text) : natOfDigits t < numerals t.length := by
  have hlt := foldl_digits_lt (t := t) 0 0 Nat.one_pos
  rwa [Nat.zero_add] at hlt

theorem isDigit_of_mem_decimal {c : Char} (h : c ∈ decimal n) : c.isDigit = true :=
  Nat.isDigit_of_mem_toDigits (by decide) (by decide) h

theorem natOfDigits_decimal (n : Nat) : natOfDigits (decimal n) = n := by
  have hall : ∀ (l : Text) (k : Nat), (∀ c ∈ l, c.isDigit = true) →
      l.foldl (fun n c => n * 10 + (digitValue? c).getD 0) k = Nat.ofDigitChars 10 l k := by
    intro l
    induction l with
    | nil => exact fun _ _ => rfl
    | cons c l ih =>
      intro k hl
      rw [foldl_cons, Nat.ofDigitChars_cons, digitValue?_of_isDigit (hl c mem_cons_self),
        ih _ fun d hd => hl d (mem_cons_of_mem _ hd), Option.getD_some, Nat.mul_comm]
  rw [natOfDigits, hall, decimal, Nat.ofDigitChars_toDigits (by decide) (by decide)]
  exact fun c hc => isDigit_of_mem_decimal hc

/-- A number with at most `k` digits. -/
theorem length_decimal_le_of_lt {k : Nat} (hk : 0 < k) (h : n < numerals k) :
    (decimal n).length ≤ k := by
  have hpow : ∀ k, numerals k = Nat.pow 10 k := by
    intro k
    induction k with
    | zero => rfl
    | succ k ih => exact congrArg (· * 10) ih
  rw [hpow] at h
  exact (Nat.length_toDigits_le_iff (by decide) hk).mpr h

theorem length_decimal_le (h : n < capacity) : (decimal n).length ≤ digitLimit :=
  length_decimal_le_of_lt (by decide) h

theorem readNat_decimal (h : n < capacity) : readNat (decimal n) = .ok n := by
  rw [readNat, if_neg (Nat.not_lt.mpr (length_decimal_le h)), natOfDigits_decimal]

theorem meets_writeInt {n : Int} (h : n.natAbs < capacity) :
    Meets fails (fun t => t = signedDecimal n) (writeInt n) := by
  rw [writeInt, if_neg (Nat.not_lt.mpr (length_decimal_le h))]
  exact .ok rfl

/-- An integer literal consists of digits after an optional minus sign, with a line feed behind it
or none. -/
theorem integerLiteral_parts (h : Loop.integerLiteral.matchesStart t = true) :
    ∃ digits rest, (t = digits ++ rest ∨ t = '-' :: (digits ++ rest)) ∧ digits ≠ [] ∧
    (∀ c ∈ digits, isDigit c = true) ∧ (rest = [] ∨ rest = ['\n']) := by
  obtain ⟨m, hm⟩ := Option.isSome_iff_exists.mp h
  obtain ⟨hof, hfirst⟩ := of_matchStart hm
  have hreads := hof.reads
  rw [hfirst] at hreads
  have hsplit : t = m.whole ++ m.last.ahead := hreads.ahead_eq
  simp only [Loop.integerLiteral, append_eq_seq, maybe, many1,
    reads_seq_iff, reads_atStart_iff, reads_atEnd_iff,
    reads_alt_iff,
    reads_literal_iff, reads_empty_iff, reads_char_iff,
    reads_chars_iff] at hreads
  obtain ⟨a, u, b, ht,
      ⟨sign, v, digits, rfl, ⟨_, _, sign', rfl, ⟨rfl, -, -⟩, hsign⟩, c, w, more, rfl,
    ⟨d, _, rfl, hd, -, -⟩, hmore, -⟩, rfl, hlast, hend⟩ := hreads
  refine ⟨d :: more, m.last.ahead, ?_, by simp, ?_, ?_⟩
  · rw [ht] at hsplit
    rcases hsign with ⟨rfl, -⟩ | ⟨rfl, -⟩
    · exact .inr (by simpa using hsplit)
    · exact .inl (by simpa using hsplit)
  · exact forall_mem_cons.mpr ⟨hd, hmore⟩
  · rw [← hlast] at hend
    simpa [State.isEnd] using hend

theorem integerLiteral_digits (h : Loop.integerLiteral.matchesStart t = true)
    (hline : t.getLast? ≠ some '\n') :
    ∃ digits, (t = digits ∨ t = '-' :: digits) ∧ digits ≠ [] ∧ ∀ c ∈ digits, isDigit c = true := by
  obtain ⟨digits, rest, ht, hne, hdigits, rfl | rfl⟩ := integerLiteral_parts h
  · exact ⟨digits, by simpa using ht, hne, hdigits⟩
  · refine absurd ?_ hline
    rcases ht with rfl | rfl
    · exact getLast?_concat
    · rw [← cons_append]
      exact getLast?_concat

/-- The digits of every number in the text are within the limit, for the number and for the next
one. -/
def NumeralsFit (t : Text) : Prop :=
  ∀ digits, digits <:+: t → (∀ c ∈ digits, isDigit c = true) →
    digits.length ≤ digitLimit ∧ natOfDigits digits + 1 < capacity

theorem NumeralsFit.part {part : Text} (h : NumeralsFit t) (hpart : part <:+: t) :
    NumeralsFit part :=
  fun digits hdigits => h digits (hdigits.trans hpart)

theorem ten_mul_natOfDigits_le (h : digits.length < digitLimit) :
    10 * natOfDigits digits + 10 ≤ capacity := by
  have hlt : natOfDigits digits < numerals digits.length := natOfDigits_lt digits
  have hstep : numerals digits.length * 10 ≤ capacity := numerals_le h
  omega

theorem ten_le_capacity : 10 ≤ capacity :=
  Nat.le_trans (Nat.le_add_left _ _) (@ten_mul_natOfDigits_le [] (by decide))

theorem natOfDigits_succ_lt (h : digits.length < digitLimit) :
    natOfDigits digits + 1 < capacity := by
  have := ten_mul_natOfDigits_le h
  omega

theorem numeralsFit_of_length
    (h : ∀ digits, digits <:+: t → (∀ c ∈ digits, isDigit c = true) → digits.length < digitLimit) :
    NumeralsFit t := fun digits hdigits hall =>
  ⟨Nat.le_of_lt (h digits hdigits hall), natOfDigits_succ_lt (h digits hdigits hall)⟩

theorem numeralsFit_of_countP (h : t.countP isDigit < digitLimit) : NumeralsFit t := by
  refine numeralsFit_of_length fun digits hdigits hall => Nat.lt_of_le_of_lt ?_ h
  rw [← countP_eq_length.mpr hall]
  exact hdigits.sublist.countP_le

theorem meets_readInt_of_digits {p : Nat → Prop} (h : Loop.integerLiteral.matchesStart t = true)
    (hline : '\n' ∉ t) (hdigits : ∀ digits, digits <:+: t → (∀ c ∈ digits, isDigit c = true) →
      digits.length ≤ digitLimit ∧ p (natOfDigits digits)) : Meets fails (fun n => p n.natAbs)
      (readInt t) := by
  obtain ⟨digits, ht, hne, hall⟩ :=
    integerLiteral_digits h fun hlast => hline (mem_of_getLast? hlast)
  have hwithin : digits <:+: t := by
    rcases ht with rfl | rfl
    · exact infix_rfl
    · exact (suffix_cons _ _).isInfix
  obtain ⟨hlength, hsize⟩ := hdigits digits hwithin hall
  have hread : readNat digits = .ok (natOfDigits digits) := if_neg (Nat.not_lt.mpr hlength)
  rcases ht with rfl | rfl
  · have hsign : ∀ rest, t ≠ '-' :: rest := by
      rintro rest rfl
      exact absurd (hall '-' mem_cons_self) (by decide)
    unfold readInt
    split
    · exact absurd rfl (hsign _)
    · rw [hread]
      exact .ok (by simpa using hsize)
  · rw [readInt, hread]
    exact .ok (by simpa using hsize)

theorem meets_readInt (h : Loop.integerLiteral.matchesStart t = true) (hline : '\n' ∉ t)
    (hfit : NumeralsFit t) : Meets fails (fun n => n.natAbs + 1 < capacity) (readInt t) :=
  meets_readInt_of_digits (p := fun n => n + 1 < capacity) h hline hfit

theorem NumeralsFit.append {a b sep : Text} (ha : NumeralsFit a) (hb : NumeralsFit b)
    (hsep : ∀ c ∈ sep, isDigit c = false) (hne : sep ≠ []) : NumeralsFit (a ++ (sep ++ b)) := by
  intro digits hdigits hall
  have hmem : ∀ c ∈ sep, c ∉ digits := fun c hc hmem => absurd (hall c hmem) (by simp [hsep c hc])
  rcases infix_append_sep hdigits hne hmem with h | h
  · exact ha digits h hall
  · exact hb digits h hall

theorem numeralsFit_decimal (h : n + 1 < capacity) : NumeralsFit (decimal n) := by
  intro digits hdigits _
  have hlength := hdigits.length_le
  have hlimit := length_decimal_le (Nat.lt_of_succ_lt h)
  refine ⟨Nat.le_trans hlength hlimit, ?_⟩
  rcases Nat.lt_or_ge digits.length (decimal n).length with hshort | hlong
  · exact natOfDigits_succ_lt (Nat.lt_of_lt_of_le hshort hlimit)
  · rw [hdigits.sublist.eq_of_length_le hlong, natOfDigits_decimal]
    exact h

theorem numeralsFit_signedDecimal {n : Int} (h : n.natAbs + 1 < capacity) :
    NumeralsFit (signedDecimal n) := by
  have hdecimal := numeralsFit_decimal h
  simp only [signedDecimal]
  split
  · have hnil : NumeralsFit [] := hdecimal.part nil_infix
    show NumeralsFit ([] ++ (['-'] ++ decimal n.natAbs))
    refine hnil.append hdecimal (fun c hc => ?_) (cons_ne_nil _ _)
    rw [mem_singleton.mp hc]
    rfl
  · exact hdecimal

theorem mem_signedDecimal {n : Int} (h : c ∈ signedDecimal n) : c.isDigit = true ∨ c = '-' := by
  have hdecimal : c ∈ decimal n.natAbs → c.isDigit = true := isDigit_of_mem_decimal
  simp only [signedDecimal] at h
  split at h
  · rcases mem_cons.mp h with rfl | h
    · exact .inr rfl
    · exact .inl (hdecimal h)
  · exact .inl (hdecimal h)

/-- A number that was written is read back. -/
theorem readInt_signedDecimal {n : Int} (h : n.natAbs < capacity) :
    readInt (signedDecimal n) = .ok n := by
  have hread := readNat_decimal h
  simp only [signedDecimal]
  split
  · rw [readInt, hread]
    show Except.ok (-Int.ofNat n.natAbs) = Except.ok n
    congr 1
    simp only [Int.ofNat_eq_natCast]
    omega
  · have hsign : ∀ rest, decimal n.natAbs ≠ '-' :: rest := by
      intro rest heq
      have hdigit : ('-').isDigit = true :=
        isDigit_of_mem_decimal (n := n.natAbs) (by rw [heq]; exact mem_cons_self)
      exact absurd hdigit (by decide)
    unfold readInt
    split
    · rename_i rest heq
      exact absurd heq (hsign rest)
    · rw [hread]
      show Except.ok (Int.ofNat n.natAbs) = Except.ok n
      congr 1
      simp only [Int.ofNat_eq_natCast]
      omega

theorem meets_offsetBound {bound : Text} {delta : Int} (hline : '\n' ∉ bound)
    (hfit : NumeralsFit bound) (hdelta : delta.natAbs ≤ 1) :
    Meets fails (fun _ => True) (Loop.offsetBound bound delta) := by
  have hpart : strip bound <:+: bound := strip_isInfix bound
  simp only [Loop.offsetBound]
  refine .ite (fun hliteral => ?_) fun _ => .either (.ok trivial) (.ok trivial)
  refine (meets_readInt hliteral (fun hmem => hline (hpart.subset hmem)) (hfit.part hpart)).bind
    fun n hn => ?_
  exact (meets_writeInt (by omega)).imp fun _ _ => trivial

theorem meets_rangeArguments {h : Loop.Header} (hline : '\n' ∉ h.bound)
    (hfit : NumeralsFit h.bound) : Meets fails (fun _ => True) (Loop.rangeArguments h) := by
  have hshift : ∀ delta : Int, delta.natAbs ≤ 1 →
      Meets fails (fun _ => True) (some <$> Loop.offsetBound h.bound delta) := fun delta hdelta =>
    Meets.map ((meets_offsetBound hline hfit hdelta).imp fun _ _ => trivial)
  simp only [Loop.rangeArguments]
  refine .either ?_ ?_
  · cases h.comparison
    case atMost => exact (hshift 1 (by decide)).bind fun _ _ => .ok trivial
    all_goals exact .ok trivial
  · cases h.comparison
    case atLeast => exact (hshift (-1) (by decide)).bind fun _ _ => .ok trivial
    all_goals exact .ok trivial

end CodeConverter.Text

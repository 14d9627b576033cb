import CodeConverter.Proofs.Brace.Limit
import CodeConverter.Proofs.Erasure.Total
import CodeConverter.Proofs.Indent.Total
import CodeConverter.Registry

/-!
# Registered conversions fail at two kinds of lines only

For a registered pair of languages every text within the limits is converted, unless it has a class
header whose list of bases is blank or a formatted print whose arguments are blank. So no entry is
ever missing from a stack, no masked literal is lost, and no number is too long.
-/

namespace CodeConverter

open Text Literal List Converter Brace

variable {source target code : Text}

theorem Converter.convertAll_singleton (c : Converter) (code : Text) :
    convertAll [c] code = c.convert code := by
  simp [convertAll]

namespace Registry

theorem exists_entry (h : isSupported source target = true) :
    ∃ e ∈ entries, source = e.source ∧ target = e.target ∧ chain? source target = some e.chain := by
  obtain ⟨chain, hchain⟩ := Option.isSome_iff_exists.mp h
  obtain ⟨e, he, rfl⟩ := Option.map_eq_some_iff.mp hchain
  have hpair := find?_some he
  simp only [Bool.and_eq_true, decide_eq_true_eq] at hpair
  exact ⟨e, mem_of_find?_eq_some he, hpair.1.symm, hpair.2.symm, hchain⟩

/-- Where and how a registered conversion of a text fails: at a class header of C# with a blank list
of bases, or at a formatted print of Java with blank arguments. -/
def Refuses (code source target : Text) (fault : Fault) : Prop :=
  (source = "csharp" ∧ target = "javascript" ∧
    ∃ l ∈ visited .csharpToJavaScript code, Rejects .csharpToJavaScript l fault) ∨
  (source = "java" ∧ target = "python" ∧
    ∃ l ∈ visited .javaToPython code, Rejects .javaToPython l fault)

/-- A text of which no conversion runs into a limit. The bound on the length, far above what any
memory holds, is there because the places of masked literals are written as numbers. -/
structure Within (code : Text) : Prop where
  null : '\x00' ∉ code
  digits : code.countP isDigit < digitLimit
  length : code.length < numerals (digitLimit - 1)

theorem Within.brace_eq_error_iff (h : Within code) {c : Conversion} (hc : c ≠ .toBraces)
    (fault : Fault) : convertAll [.brace c] code = .error fault ↔
      ∃ l ∈ visited c code, Rejects c l fault := by
  rw [convertAll_singleton]
  refine convert_eq_error_iff hc fun line hline => ?_
  have hpart : line <:+: code := infix_of_mem_splitOn hline
  have hlength := hpart.length_le
  have hbound := h.length
  have hcapacity := capacity_eq
  exact tractable_of_countP (fun hmem => h.null (hpart.subset hmem))
    (not_mem_of_mem_splitOn hline) (Nat.lt_of_le_of_lt hpart.sublist.countP_le h.digits) (by omega)

theorem Within.indent_ne_error (h : Within code) (c : Indent.Conversion) (fault : Fault) :
    convertAll [.indent c] code ≠ .error fault := by
  have hmoderate : ∀ line ∈ lines code, Moderate (strip line) := fun line hline => by
    have hpart : strip line <:+: code := (strip_isInfix line).trans (infix_of_mem_splitOn hline)
    have hquotes := Nat.le_trans (countP_le_length (p := isQuote)) hpart.length_le
    have hbraces := Nat.le_trans (count_le_length (a := '{')) hpart.length_le
    have hbound := h.length
    have hcapacity := capacity_eq
    exact ⟨fun hmem => h.null (hpart.subset hmem), by omega⟩
  obtain ⟨out, hout⟩ := Indent.exists_convert_eq_ok (c := c) hmoderate
  rw [convertAll_singleton, convert, hout]
  exact nofun

/-- Erasing types does not fail within the limits. -/
theorem Within.erasure_ne_error (h : Within code) (fault : Fault) :
    convertAll [.erasure] code ≠ .error fault ∧
      convertAll [.erasure, .brace .javascriptToPython] code ≠ .error fault := by
  obtain ⟨out, hout, hlines⟩ := (Erasure.meets_convert h.null h.digits h.length).exists_ok
  have hbound := h.length
  have hcapacity := capacity_eq
  have hthen : (machine .javascriptToPython).convert out ≠ .error fault := by
    intro herror
    obtain ⟨l, -, hrejects⟩ := (convert_eq_error_iff (by decide) fun line hline =>
      (hlines line hline).2.tractable (hlines line hline).1 (by omega)).mp herror
    cases hrejects
  have hone : convertAll [.erasure] code = .ok out :=
    (convertAll_singleton _ _).trans hout
  have htwo : convertAll [.erasure, .brace .javascriptToPython] code =
      convertAll [.brace .javascriptToPython] out := by
    rw [convertAll, foldlM_cons, convert, hout]
    rfl
  rw [hone, htwo, convertAll_singleton]
  exact ⟨nofun, hthen⟩

theorem iff_refuses {fails : Prop} (hfails : ¬ fails) {fault : Fault}
    (h : ¬ (source = "csharp" ∧ target = "javascript") ∧
      ¬ (source = "java" ∧ target = "python")) : fails ↔ Refuses code source target fault := by
  refine iff_of_false hfails ?_
  rintro (⟨hsource, htarget, -⟩ | ⟨hsource, htarget, -⟩)
  · exact h.1 ⟨hsource, htarget⟩
  · exact h.2 ⟨hsource, htarget⟩

/-- The converters of an entry fail exactly at what the pair refuses. -/
theorem Within.entry_eq_error_iff (h : Within code) {e : Entry} (he : e ∈ entries) (fault : Fault) :
    convertAll e.chain code = .error fault ↔ Refuses code e.source e.target fault := by
  have hbrace := fun c hc => h.brace_eq_error_iff (c := c) hc fault
  have hindent := fun c => h.indent_ne_error c fault
  have herasure := h.erasure_ne_error fault
  simp only [entries, mem_cons, not_mem_nil, or_false] at he
  -- Only the entries of C# to JavaScript and of Java to Python have lines to reject.
  have hquiet : ∀ c : Conversion, c ≠ .toBraces → (∀ l, ¬ Rejects c l fault) →
      convertAll [.brace c] code ≠ .error fault := fun c hc hrejects herror => by
    obtain ⟨l, -, hl⟩ := (hbrace c hc).mp herror
    exact hrejects l hl
  rcases he with rfl | rfl | rfl | rfl | rfl | rfl | rfl | rfl | rfl | rfl | rfl | rfl | rfl
  · exact iff_refuses (hquiet _ (by decide) fun l hl => by cases hl) (by decide)
  · refine (hbrace _ (by decide)).trans ⟨fun hl => .inr ⟨rfl, rfl, hl⟩, ?_⟩
    rintro (⟨hsource, -, -⟩ | ⟨-, -, hl⟩)
    · exact absurd hsource (by decide)
    · exact hl
  · exact iff_refuses (hquiet _ (by decide) fun l hl => by cases hl) (by decide)
  · exact iff_refuses (hindent _) (by decide)
  · exact iff_refuses (hindent _) (by decide)
  · exact iff_refuses (hindent _) (by decide)
  · exact iff_refuses (hindent _) (by decide)
  · exact iff_refuses herasure.1 (by decide)
  · exact iff_refuses herasure.2 (by decide)
  · refine (hbrace _ (by decide)).trans ⟨fun hl => .inl ⟨rfl, rfl, hl⟩, ?_⟩
    rintro (⟨-, -, hl⟩ | ⟨hsource, -, -⟩)
    · exact hl
    · exact absurd hsource (by decide)
  · exact iff_refuses (hquiet _ (by decide) fun l hl => by cases hl) (by decide)
  · exact iff_refuses (hquiet _ (by decide) fun l hl => by cases hl) (by decide)
  · exact iff_refuses (hquiet _ (by decide) fun l hl => by cases hl) (by decide)

/-- A registered conversion of a text within the limits fails exactly where it refuses a line, and
gives a text if it refuses none. -/
theorem convertCode_outcome {code source target : Text}
    (hsupported : isSupported source target = true)
    (hnull : '\x00' ∉ code) (hdigits : code.countP isDigit < digitLimit)
    (hlength : code.length < numerals (digitLimit - 1)) :
    (∀ fault, convertCode code source target = .error fault ↔ Refuses code source target fault) ∧
      ((∃ out, convertCode code source target = .ok out) ↔ ∀ fault,
      ¬ Refuses code source target fault) := by
  obtain ⟨e, he, rfl, rfl, hchain⟩ := exists_entry hsupported
  have hwithin : Within code := ⟨hnull, hdigits, hlength⟩
  have hconvert : convertCode code e.source e.target = convertAll e.chain code := by
    rw [convertCode, hchain]
  have hfails := hwithin.entry_eq_error_iff he
  rw [hconvert]
  refine ⟨hfails, fun ⟨out, hout⟩ fault hrefuses => ?_, fun hnever => ?_⟩
  · rw [(hfails fault).mpr hrefuses] at hout
    cases hout
  · cases hresult : convertAll e.chain code with
    | ok out => exact ⟨out, rfl⟩
    | error fault => exact absurd ((hfails fault).mp hresult) (hnever fault)

/-- A class header whose list of bases is two blanks, and a formatted print of one blank. -/
theorem convertCode_outcome_blank : Refuses "class A :  \x7b" "csharp" "javascript" .emptyBaseList ∧
      Refuses "System.out.printf( );" "java" "python" .missingFormat ∧
      ∀ fault, ¬ Refuses "System.out.printf( );" "java" "javascript" fault := by
  have hshort : ∀ t : Text, t.length < numerals 2 → t.length < numerals (digitLimit - 1) :=
    fun t ht =>
    Nat.lt_of_lt_of_le ht (numerals_le (by decide))
  have hbases :=
    @convertCode_outcome "class A :  \x7b" "csharp" "javascript" (by decide) (by decide) (by decide)
    (hshort _ (by decide))
  have hformat :=
    fun target hsupported => @convertCode_outcome "System.out.printf( );" "java" target hsupported
    (by decide) (by decide) (hshort _ (by decide))
  refine ⟨(hbases.1 _).mp rfl, ((hformat "python" rfl).1 _).mp rfl, ?_⟩
  exact (hformat "javascript" rfl).2.mp ⟨_, rfl⟩

end Registry

end CodeConverter

import CodeConverter.Json.Reader
import CodeConverter.Json.Writer
import CodeConverter.Proofs.Text.Numeral

/-!
# What is written is read back

A JSON text is read back as the value it was written for, whatever characters its strings have. The
value must have one field of each name, and its integers must be short enough to be read. Floating
point numbers and broken strings are left out.
-/

namespace CodeConverter.Json

open Text
open List hiding dropPrefix?

/-! ## Strings -/

/-- The units of a character: itself, or the halves of its surrogate pair. -/
def unitsOf (c : Char) : List Unit16 :=
  if c.toNat < 0x10000 then [.char c]
  else [.high (0xd800 + (c.toNat - 0x10000) / 0x400), .low (0xdc00 + (c.toNat - 0x10000) % 0x400)]

theorem toNat_cases (c : Char) : c.toNat < 0xd800 ∨ (0xdfff < c.toNat ∧ c.toNat < 0x110000) :=
  c.valid

variable {code n : Nat} {c : Char} {digits rest t name : Text} {v value : Json}
    {fields : List (Text × Json)}

theorem hexNumber?_hexDigits (h : code < 0x10000) :
    hexNumber? (hexDigit (code / 16 / 16 / 16 % 16)) (hexDigit (code / 16 / 16 % 16))
    (hexDigit (code / 16 % 16)) (hexDigit (code % 16)) = some code := by
  simp only [hexNumber?, hexValue?_hexDigit (Nat.mod_lt _ (by decide : 0 < 16))]
  show some _ = some code
  congr 1
  omega

theorem readUnits_unicodeEscape (h : code < 0x10000) (t : Text) :
    readUnits (unicodeEscape code ++ t) =
      (readUnits t).map fun (units, rest) => (Unit16.ofNat code :: units, rest) := by
  show readUnits ('\\' :: 'u' :: hexDigit (code / 16 / 16 / 16 % 16) ::
      hexDigit (code / 16 / 16 % 16) :: hexDigit (code / 16 % 16) :: hexDigit (code % 16) :: t) = _
  rw [readUnits, hexNumber?_hexDigits h]
  cases readUnits t <;> rfl

theorem readUnits_escaped {e : Char} (he : escaped? e = some c) (t : Text) :
    readUnits ('\\' :: e :: t) = (readUnits t).map fun (units, rest) =>
    (Unit16.char c :: units, rest) := by
  have hu : e ≠ 'u' := by
    rintro rfl
    cases he
  rw [readUnits, he]
  · cases readUnits t <;> rfl
  · intro a b c d rest heq _
    exact hu heq

theorem readUnits_printable (hquote : c ≠ '\x22') (hslash : c ≠ '\\') (h : 0x20 ≤ c.toNat)
    (t : Text) :
    readUnits (c :: t) = (readUnits t).map fun (units, rest) => (Unit16.char c :: units, rest) := by
  have hraw : (c.toNat < 0x20 || c = '\\') = false := by
    simp [hslash]
    omega
  rw [readUnits, hraw]
  · cases readUnits t <;> rfl
  · exact hquote
  · intro a b d e rest heq _
    exact hslash heq
  · intro d rest heq _
    exact hslash heq

/-- A character is read back as its units, however it was escaped. -/
theorem readUnits_escapeChar (c : Char) (t : Text) :
    readUnits (escapeChar c ++ t) = (readUnits t).map fun (units, rest) =>
    (unitsOf c ++ units, rest) := by
  have hvalid := toNat_cases c
  unfold escapeChar unitsOf
  -- The escapes of single letters, then printable characters, then escapes by number.
  iterate 7
    split
    · subst_vars
      exact readUnits_escaped rfl t
  rename_i hquote hslash _ _ _ _ _
  split
  · rename_i hrange
    rw [Bool.and_eq_true, decide_eq_true_eq, decide_eq_true_eq] at hrange
    rw [if_pos (by omega)]
    exact readUnits_printable hquote hslash hrange.1 t
  split
  · rename_i hsmall
    have hunit : Unit16.ofNat c.toNat = .char c := by
      unfold Unit16.ofNat
      rw [if_neg (by simp; omega), if_neg (by simp; omega), Char.ofNat_toNat]
    rw [readUnits_unicodeEscape hsmall, hunit]
    rfl
  · have hhigh : Unit16.ofNat (0xd800 + (c.toNat - 0x10000) / 0x400) =
      .high (0xd800 + (c.toNat - 0x10000) / 0x400) := by
      unfold Unit16.ofNat
      rw [if_pos (by simp; omega)]
    have hlow : Unit16.ofNat (0xdc00 + (c.toNat - 0x10000) % 0x400) =
        .low (0xdc00 + (c.toNat - 0x10000) % 0x400) := by
      unfold Unit16.ofNat
      rw [if_neg (by simp; omega), if_pos (by simp; omega)]
    rw [append_assoc, readUnits_unicodeEscape (by omega), readUnits_unicodeEscape (by omega),
      hhigh, hlow]
    cases readUnits t <;> rfl

theorem readUnits_quoted (t rest : Text) :
    readUnits (t.flatMap escapeChar ++ '\x22' :: rest) = some (t.flatMap unitsOf, rest) := by
  induction t with
  | nil => rfl
  | cons c t ih =>
    rw [flatMap_cons, flatMap_cons, append_assoc, readUnits_escapeChar, ih]
    rfl

theorem codesOfUnits_unitsOf (c : Char) (units : List Unit16) :
    codesOfUnits (unitsOf c ++ units) = c.toNat :: codesOfUnits units := by
  unfold unitsOf
  split
  · rfl
  · rename_i hlarge
    have hcode : ∀ n, 0x10000 ≤ n → 0x10000 + (0xd800 + (n - 0x10000) / 0x400 - 0xd800) * 0x400 +
        (0xdc00 + (n - 0x10000) % 0x400 - 0xdc00) = n := by
      intro n hn
      omega
    rw [cons_append, cons_append, codesOfUnits, hcode _ (by omega)]
    rfl

theorem readString_quote (t rest : Text) :
    readString (t.flatMap escapeChar ++ '\x22' :: rest) = some (codes t, rest) := by
  have hcodes : codesOfUnits (t.flatMap unitsOf) = codes t := by
    induction t with
    | nil => rfl
    | cons c t ih =>
      rw [flatMap_cons, codesOfUnits_unitsOf, ih]
      rfl
  rw [readString, readUnits_quoted, ← hcodes]
  rfl

/-! ## Numbers -/

/-- What may follow a value: the text ends, or goes on with what separates or closes. -/
def Stops (rest : Text) : Prop :=
  ∀ c ∈ rest.head?, c = ',' ∨ c = ']' ∨ c = '}'

theorem readDigits_append (h : ∀ c ∈ digits, c.isDigit = true) (hrest : Stops rest) :
    readDigits (digits ++ rest) = (digits, rest) := by
  have hnone : rest.takeWhile Char.isDigit = [] ∧ rest.dropWhile Char.isDigit = rest := by
    cases rest with
    | nil => exact ⟨rfl, rfl⟩
    | cons c rest =>
      have hc : c.isDigit = false := by
        rcases hrest c rfl with rfl | rfl | rfl <;> rfl
      simp [hc]
  rw [readDigits, takeWhile_append_of_pos h, dropWhile_append_of_pos h, hnone.1, hnone.2,
    append_nil]

theorem readFraction_stops (h : Stops rest) : readFraction rest = (none, rest) ∧
    readExponent rest = none := by
  cases rest with
  | nil => exact ⟨rfl, rfl⟩
  | cons c rest => rcases h c rfl with rfl | rfl | rfl <;> exact ⟨rfl, rfl⟩

theorem eq_nil_of_decimal (h : decimal n = '0' :: digits) : digits = [] := by
  by_contra hne
  have hvalue : n = natOfDigits digits := by
    rw [← natOfDigits_decimal n, h]
    rfl
  have hlength : (decimal n).length ≤ digits.length := by
    refine length_decimal_le_of_lt (length_pos_iff.mpr hne) ?_
    rw [hvalue]
    exact natOfDigits_lt digits
  rw [h, length_cons] at hlength
  omega

theorem decimal_ne_nil (n : Nat) : decimal n ≠ [] := by
  unfold decimal
  exact Nat.toDigits_ne_nil

/-- A number is read up to its end. -/
theorem readNumber_decimal (hn : (decimal n).length ≤ digitLimit) (negative : Bool)
    (hrest : Stops rest) :
    readNumber negative (decimal n ++ rest) = some (.int (if negative then -(n : Int) else n),
    rest) := by
  obtain ⟨hfraction, hexponent⟩ := readFraction_stops hrest
  have hdigits := readDigits_append (fun c hc => isDigit_of_mem_decimal (n := n) hc) hrest
  unfold readNumber
  split
  rename_i whole after hwhole
  obtain ⟨rfl, rfl⟩ : decimal n = whole ∧ rest = after := by
    split at hwhole
    · rename_i hzero
      obtain ⟨first, digits, hcons⟩ := exists_cons_of_ne_nil (decimal_ne_nil n)
      rw [hcons, cons_append] at hzero
      obtain ⟨rfl, rfl⟩ := cons.inj hzero
      obtain rfl := eq_nil_of_decimal hcons
      rw [hcons]
      exact Prod.mk.inj hwhole
    · rw [hdigits] at hwhole
      exact Prod.mk.inj hwhole
  simp only [hfraction, hexponent, List.isEmpty_iff, decimal_ne_nil, if_false,
    if_neg (Nat.not_lt.mpr hn), natOfDigits_decimal]

theorem words_eq_none (hc : c.isDigit = true) (sign : Text) (hsign : sign = [] ∨ sign = ['-']) :
    (words.findSome? fun (word, value) => (dropPrefix? word (sign ++ c :: t)).map (value, ·)) =
    none := by
  have hother : ∀ d : Char, d.isDigit = false → (d = c) = False := by
    intro d hd
    refine eq_false fun heq => ?_
    rw [heq, hc] at hd
    cases hd
  rcases hsign with rfl | rfl <;>
    simp [words, dropPrefix?, hother 'n' rfl, hother 't' rfl, hother 'f' rfl, hother 'N' rfl,
      hother 'I' rfl, hother '-' rfl]

theorem exists_decimal_cons (n : Nat) :
    ∃ first digits, decimal n = first :: digits ∧ first.isDigit = true := by
  obtain ⟨first, digits, hcons⟩ := exists_cons_of_ne_nil (decimal_ne_nil n)
  exact ⟨first, digits, hcons, isDigit_of_mem_decimal (by rw [hcons]; exact mem_cons_self)⟩

/-- An integer within the limit is read back. -/
theorem readPlain_signedDecimal {n : Int} (hn : (decimal n.natAbs).length ≤ digitLimit)
    (hrest : Stops rest) : readPlain (signedDecimal n ++ rest) = some (.int n, rest) := by
  obtain ⟨first, digits, hcons, hfirst⟩ := exists_decimal_cons n.natAbs
  have hminus : first ≠ '-' := by
    rintro rfl
    cases hfirst
  unfold readPlain signedDecimal
  by_cases hneg : n < 0
  · rw [if_pos hneg, hcons]
    have hnone := words_eq_none (t := digits ++ rest) hfirst ['-'] (.inr rfl)
    simp only [cons_append, nil_append] at hnone ⊢
    rw [hnone]
    show readNumber true (first :: digits ++ rest) = _
    rw [← hcons, readNumber_decimal hn true hrest]
    simp only [if_true]
    congr 3
    omega
  · rw [if_neg hneg, hcons]
    have hnone := words_eq_none (t := digits ++ rest) hfirst [] (.inl rfl)
    simp only [cons_append, nil_append] at hnone ⊢
    rw [hnone]
    dsimp only
    split
    · rename_i heq
      exact absurd (cons.inj heq).1 hminus
    · rw [← cons_append, ← hcons, readNumber_decimal hn false hrest]
      simp only [Bool.false_eq_true, if_false]
      congr 3
      omega

theorem exists_signedDecimal_cons (n : Int) :
    ∃ c t, signedDecimal n = c :: t ∧ ∀ d, d ≠ '-' → d.isDigit = false → c ≠ d := by
  obtain ⟨first, digits, hcons, hfirst⟩ := exists_decimal_cons n.natAbs
  unfold signedDecimal
  split
  · exact ⟨'-', _, rfl, fun d hd _ => Ne.symm hd⟩
  · refine ⟨first, digits, hcons, fun d _ hd heq => ?_⟩
    rw [← heq, hfirst] at hd
    cases hd

/-! ## Values -/

/-- A value that is read back from its text. -/
inductive Plain : Json → Prop where
  | null : Plain .null
  | bool (value : Bool) : Plain (.bool value)
  | int {value : Int} : (decimal value.natAbs).length ≤ digitLimit → Plain (.int value)
  | string (text : Text) : Plain (.string text)
  | array {items : List Json} : (∀ item ∈ items, Plain item) → Plain (.array items)
  | object {fields : List (Text × Json)} : (fields.map Prod.fst).Nodup → (∀ f ∈ fields, Plain f.2) →
      Plain (.object fields)

theorem exists_render_cons (h : Plain v) : ∃ c t, render v = c :: t ∧ isSpace c = false ∧
    c ≠ ']' := by
  cases h with
  | null => exact ⟨_, _, rfl, rfl, by decide⟩
  | bool value => cases value <;> exact ⟨_, _, rfl, rfl, by decide⟩
  | @int value _ =>
    obtain ⟨c, t, hcons, hc⟩ := exists_signedDecimal_cons value
    refine ⟨c, t, by rw [render, hcons], ?_, hc ']' (by decide) rfl⟩
    simp [isSpace, hc ' ' (by decide) rfl, hc '\t' (by decide) rfl, hc '\n' (by decide) rfl,
      hc '\r' (by decide) rfl]
  | string text => exact ⟨_, _, rfl, rfl, by decide⟩
  | array _ | object _ _ =>
    unfold render
    exact ⟨_, _, rfl, rfl, by decide⟩

theorem skipSpace_cons (h : isSpace c = false) : skipSpace (c :: t) = c :: t := by
  rw [skipSpace, dropWhile_cons, h]
  rfl

theorem setField_of_not_mem (h : name ∉ fields.map Prod.fst) :
    setField name value fields = fields ++ [(name, value)] := by
  induction fields with
  | nil => rfl
  | cons f fields ih =>
    rw [map_cons, mem_cons, not_or] at h
    rw [setField, if_neg (Ne.symm h.1), ih h.2]
    rfl

/-- The value is read back, whatever follows it, with as many steps as its text has characters. -/
def ReadBack (v : Json) : Prop :=
  ∀ n rest, (render v).length ≤ n → Stops rest → readValue n (render v ++ rest) = some (v, rest)

theorem skipSpace_render (h : Plain v) (t : Text) : skipSpace (render v ++ t) = render v ++ t := by
  obtain ⟨c, rest, hcons, hspace, -⟩ := exists_render_cons h
  rw [hcons, cons_append]
  exact skipSpace_cons hspace

theorem exists_renderItems (item : Json) (items : List Json) :
    ∃ t, renderItems (item :: items) = render item ++ t := by
  cases items with
  | nil => exact ⟨[], by rw [renderItems, append_nil]⟩
  | cons next items =>
      exact ⟨", " ++ renderItems (next :: items), by rw [renderItems, append_assoc]⟩

/-- Items that are read back one by one are read back together. -/
theorem readItems_render {item : Json} {items : List Json} (hplain : ∀ v ∈ item :: items, Plain v)
    (hread : ∀ v ∈ item :: items, ReadBack v) (hn : (renderItems (item :: items)).length < n)
    (rest : Text) :
    readItems n (renderItems (item :: items) ++ ']' :: rest) = some (item :: items, rest) := by
  induction items generalizing item n with
  | nil =>
    obtain ⟨n, rfl⟩ : ∃ m, n = m + 1 := ⟨n - 1, by omega⟩
    have hitem := hread item mem_cons_self n (']' :: rest) (by unfold renderItems at hn; omega)
      (by simp [Stops])
    rw [renderItems, readItems, hitem]
    rfl
  | cons next items ih =>
    obtain ⟨n, rfl⟩ : ∃ m, n = m + 1 := ⟨n - 1, by omega⟩
    rw [renderItems] at hn ⊢
    have hcomma : ", ".toList.length = 2 := rfl
    simp only [length_append, append_assoc] at hn ⊢
    have hitem :=
      hread item mem_cons_self n (", ".toList ++ (renderItems (next :: items) ++ ']' :: rest))
      (by omega) (by simp [Stops])
    have hitems :=
      ih (fun v hv => hplain v (mem_cons_of_mem _ hv)) (fun v hv => hread v (mem_cons_of_mem _ hv))
      (n := n) (by omega)
    -- The blank after the comma is skipped, and the next item does not start with one.
    have hskip : skipSpace (' ' :: (renderItems (next :: items) ++ ']' :: rest)) =
        renderItems (next :: items) ++ ']' :: rest := by
      obtain ⟨t, ht⟩ := exists_renderItems next items
      show skipSpace (renderItems (next :: items) ++ ']' :: rest) = _
      rw [ht, append_assoc]
      exact skipSpace_render (hplain next (by simp)) _
    rw [readItems, hitem]
    show (readItems n (skipSpace (' ' :: (renderItems (next :: items) ++ ']' :: rest))) >>= _) = _
    rw [hskip, hitems]
    rfl

/-- A field is read and put behind those before it. -/
theorem readFields_field {before : List (Text × Json)} (hplain : Plain value)
    (hread : ReadBack value) (hnew : name ∉ before.map Prod.fst) (hn : (render value).length ≤ n)
    (hrest : Stops rest) :
    readFields (n + 1) before (quote name ++ ": " ++ render value ++ rest) =
    match skipSpace rest with
      | '}' :: rest => some (before ++ [(name, value)], rest)
      | ',' :: t => readFields n (before ++ [(name, value)]) (skipSpace t)
      | _ => none := by
  have htext : quote name ++ ": " ++ render value ++ rest =
      '\x22' :: (name.flatMap escapeChar ++ '\x22' :: ':' :: ' ' :: (render value ++ rest)) := by
    simp [quote]
  have hskip : skipSpace (' ' :: (render value ++ rest)) = render value ++ rest :=
    skipSpace_render hplain rest
  rw [htext, readFields, readString_quote]
  show (readValue n (skipSpace (' ' :: (render value ++ rest))) >>= _) = _
  rw [hskip, hread n rest hn hrest]
  show (match skipSpace rest with
    | '}' :: rest => some (_, rest)
    | ',' :: t => readFields n _ (skipSpace t)
    | _ => none) = _
  rw [ofCodes?_codes]
  simp only [setField_of_not_mem hnew]

theorem exists_renderFields (f : Text × Json) (fields : List (Text × Json)) :
    ∃ t, renderFields (f :: fields) = '\x22' :: t := by
  cases fields with
  | nil | cons next fields => exact ⟨_, by rw [renderFields]; rfl⟩

/-- Fields with different names that are read back one by one are read back together, after the
fields before them. -/
theorem readFields_render {f : Text × Json} (before : List (Text × Json))
    (hplain : ∀ g ∈ f :: fields, Plain g.2) (hread : ∀ g ∈ f :: fields, ReadBack g.2)
    (hnames : ((before ++ f :: fields).map Prod.fst).Nodup)
    (hn : (renderFields (f :: fields)).length < n) (rest : Text) :
    readFields n before (renderFields (f :: fields) ++ '}' :: rest) = some (before ++ f :: fields,
    rest) := by
  obtain ⟨n, rfl⟩ : ∃ m, n = m + 1 := ⟨n - 1, by omega⟩
  have hnew : f.1 ∉ before.map Prod.fst := by
    rw [map_append, nodup_append] at hnames
    exact fun hmem => hnames.2.2 _ hmem _ (mem_cons_self) rfl
  induction fields generalizing f before n with
  | nil =>
    rw [renderFields, readFields_field (hplain f mem_cons_self) (hread f mem_cons_self) hnew
      (by simp only [renderFields, length_append] at hn; omega) (by simp [Stops])]
    rfl
  | cons next fields ih =>
    rw [renderFields] at hn ⊢
    have hcomma : ", ".toList.length = 2 := rfl
    simp only [length_append] at hn
    rw [append_assoc _ ", ".toList, append_assoc _ (", ".toList ++ _),
      readFields_field (hplain f mem_cons_self) (hread f mem_cons_self) hnew (by omega)
      (by simp [Stops])]
    have hfields : before ++ [f] ++ next :: fields = before ++ f :: next :: fields :=
      append_cons .. |>.symm
    have hnext : next.1 ∉ (before ++ [f]).map Prod.fst := by
      rw [← hfields, map_append, nodup_append] at hnames
      exact fun hmem => hnames.2.2 _ hmem _ (mem_cons_self) rfl
    obtain ⟨n, rfl⟩ : ∃ m, n = m + 1 := ⟨n - 1, by omega⟩
    have hrest := ih (before ++ [f]) (fun g hg => hplain g (mem_cons_of_mem _ hg))
      (fun g hg => hread g (mem_cons_of_mem _ hg)) (hfields ▸ hnames) n (by omega) hnext
    -- The blank after the comma is skipped, and a name does not start with one.
    have hskip : skipSpace (' ' :: (renderFields (next :: fields) ++ '}' :: rest)) =
        renderFields (next :: fields) ++ '}' :: rest := by
      obtain ⟨t, ht⟩ := exists_renderFields next fields
      show skipSpace (renderFields (next :: fields) ++ '}' :: rest) = _
      rw [ht]
      exact skipSpace_cons rfl
    show readFields (n + 1) (before ++ [f])
        (skipSpace (' ' :: (renderFields (next :: fields) ++ '}' :: rest))) = _
    rw [hskip, hrest, hfields]

theorem readValue_succ (hquote : c ≠ '\x22') (harray : c ≠ '[') (hobject : c ≠ '{') (n : Nat)
    (t : Text) : readValue (n + 1) (c :: t) = readPlain (c :: t) := by
  rw [readValue]
  · exact fun _ heq => hquote (cons.inj heq).1
  · exact fun _ heq => harray (cons.inj heq).1
  · exact fun _ heq => hobject (cons.inj heq).1

/-- Every plain value is read back. -/
theorem Plain.readBack (h : Plain v) : ReadBack v := by
  induction h with
  | null =>
    intro n rest hn _
    obtain ⟨n, rfl⟩ : ∃ m, n = m + 1 := ⟨n - 1, by have : (render .null).length = 4 := rfl; omega⟩
    rfl
  | bool value =>
    intro n rest hn _
    obtain ⟨n, rfl⟩ : ∃ m, n = m + 1 := ⟨n - 1, by cases value <;> simp [render] at hn <;> omega⟩
    cases value <;> rfl
  | @int value hvalue =>
    intro n rest hn hrest
    obtain ⟨c, t, hcons, hc⟩ := exists_signedDecimal_cons value
    have hlength : (render (.int value)).length = t.length + 1 := by
      rw [render, hcons, length_cons]
    obtain ⟨n, rfl⟩ : ∃ m, n = m + 1 := ⟨n - 1, by omega⟩
    rw [render, hcons, cons_append,
      readValue_succ (hc '\x22' (by decide) rfl) (hc '[' (by decide) rfl)
      (hc '{' (by decide) rfl), ← cons_append, ← hcons]
    exact readPlain_signedDecimal hvalue hrest
  | string text =>
    intro n rest hn _
    obtain ⟨n, rfl⟩ : ∃ m, n = m + 1 := ⟨n - 1, by simp [render, quote] at hn; omega⟩
    have htext :
        render (.string text) ++ rest = '\x22' :: (text.flatMap escapeChar ++ '\x22' :: rest) := by
      simp [render, quote]
    rw [htext, readValue, readString_quote]
    show some (Json.ofCodes (codes text), rest) = _
    rw [ofCodes_codes]
  | @array items hitems ih =>
    intro n rest hn _
    have htext : render (.array items) ++ rest = '[' :: (renderItems items ++ ']' :: rest) := by
      simp [render]
    have hlength : (render (.array items)).length = (renderItems items).length + 2 := by
      simp [render]
    obtain ⟨n, rfl⟩ : ∃ m, n = m + 1 := ⟨n - 1, by omega⟩
    rw [htext, readValue]
    cases items with
    | nil => rfl
    | cons item items =>
      obtain ⟨t, ht⟩ := exists_renderItems item items
      obtain ⟨c, first, hcons, hspace, hclose⟩ := exists_render_cons (hitems item mem_cons_self)
      have hitems := readItems_render hitems ih (n := n) (by omega) rest
      have hskip : skipSpace (renderItems (item :: items) ++ ']' :: rest) = c ::
          (first ++ (t ++ ']' :: rest)) := by
        rw [ht, hcons, cons_append, cons_append, append_assoc]
        exact skipSpace_cons hspace
      rw [hskip]
      split
      · rename_i heq
        exact absurd (cons.inj heq).1 hclose
      · rw [← append_assoc, ← cons_append, ← cons_append, ← hcons, ← ht, hitems]
        rfl
  | @object fields hnames hfields ih =>
    intro n rest hn _
    have htext : render (.object fields) ++ rest = '{' :: (renderFields fields ++ '}' :: rest) := by
      simp [render]
    have hlength : (render (.object fields)).length = (renderFields fields).length + 2 := by
      simp [render]
    obtain ⟨n, rfl⟩ : ∃ m, n = m + 1 := ⟨n - 1, by omega⟩
    rw [htext, readValue]
    cases fields with
    | nil => rfl
    | cons f fields =>
      obtain ⟨t, ht⟩ := exists_renderFields f fields
      have hfields := readFields_render [] hfields ih hnames (n := n) (by omega) rest
      rw [ht] at hfields ⊢
      show ((readFields n [] ('\x22' :: t ++ '}' :: rest)).map fun r => (Json.object r.1, r.2)) = _
      rw [hfields]
      rfl

theorem parse?_render (h : Plain v) : parse? (render v) = some v := by
  have hread := h.readBack ((render v).length + 1) [] (by omega) (by simp [Stops])
  have hskip := skipSpace_render h []
  rw [append_nil] at hread hskip
  rw [parse?, hskip, hread]
  rfl

end CodeConverter.Json

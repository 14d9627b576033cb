import CodeConverter.Expression.ToJava
import CodeConverter.Expression.ToPhp
import CodeConverter.Proofs.Argument
import CodeConverter.Proofs.Pattern.Field

/-!
# Dictionaries

A dictionary becomes a map or an array with the same entries exactly if no key has a colon in it:
the entries are told apart with regard to quotes, but an entry is cut at its first colon wherever
that stands.
-/

namespace CodeConverter

open Text Pattern List

theorem Text.cut_append {sep : Char} {t : Text} (h : sep ∉ t) (u : Text) :
    cut sep (t ++ sep :: u) = (t, u) := by
  have hall : ∀ c ∈ t, decide (c ≠ sep) = true := fun c hc => decide_eq_true fun heq => h (heq ▸ hc)
  rw [cut, takeWhile_append_of_pos hall, dropWhile_append_of_pos hall]
  simp

namespace Expression

/-- An entry of a dictionary: the name between the quotes of its key, and its value. -/
structure Entry where
  name : Text
  value : Text
  name_plain : ∀ c ∈ name, c ≠ '"' ∧ c ≠ '{' ∧ c ≠ '}'
  value_plain : ∀ c ∈ value, c ≠ '{' ∧ c ≠ '}'
  value_nonempty : value ≠ []
  value_stripped : strip value = value
  value_single : splitArguments value = [value]

/-- The key of an entry, in quotes. -/
def Entry.key (e : Entry) : Text :=
  '"' :: (e.name ++ ['"'])

/-- An entry, given the text between its key and its value. -/
def Entry.text (sep : Text) (e : Entry) : Text :=
  e.key ++ (sep ++ e.value)

/-- The contents of a dictionary, given the text between a key and its value. -/
def contents (sep : Text) (entries : List Entry) : Text :=
  join ", " (entries.map (Entry.text sep))

/-- An entry cut at its first colon and written with another separator. -/
def respelled (sep entry : Text) : Text :=
  strip (cut ':' entry).1 ++ sep ++ strip (cut ':' entry).2

variable {e : Entry} {entries : List Entry} {sep gap r t u : Text} {c : Char}

namespace Entry

theorem unseparated_key (e : Entry) :
    Unseparated (0, none) e.key ∧ scanned (0, none) e.key = (0, none) := by
  obtain ⟨hname, hend⟩ := @unseparated_quoted e.name 0 '"' fun h => (e.name_plain _ h).1 rfl
  constructor
  · refine unseparated_cons.mpr ⟨fun h => absurd h (by decide), unseparated_append.mpr ⟨hname, ?_⟩⟩
    exact unseparated_cons.mpr ⟨fun h => absurd h (by decide), unseparated_nil⟩
  · rw [key, ← singleton_append, scanned_append, scanned_append]
    exact congrArg (scanned · ['"']) hend

theorem unseparated (e : Entry) : Unseparated (0, none) (e.text ": ") := by
  have hsingle : splitArgumentsFrom 0 none [] e.value = [e.value] := e.value_single
  have hvalue : Unseparated (0, none) e.value := unseparated_of_length hsingle (by simp)
  have hcolon := @unseparated_plain ": " 0 (by decide)
  rw [text, unseparated_append, unseparated_append, e.unseparated_key.2, hcolon.2]
  exact ⟨e.unseparated_key.1, hcolon.1, hvalue⟩

theorem scanned_text (h : scanned (0, none) e.value = (0, none)) :
    scanned (0, none) (e.text ": ") = (0, none) := by
  rw [text, scanned_append, e.unseparated_key.2]
  exact h

theorem strip_text (e : Entry) (sep : Text) : strip (e.text sep) = e.text sep := by
  refine strip_eq_self_iff.mpr ⟨by simp [text, key, isBlank], fun c hc => ?_⟩
  refine (strip_eq_self_iff.mp e.value_stripped).2 c ?_
  rwa [text, ← append_assoc, getLast?_append_of_ne_nil _ e.value_nonempty] at hc

theorem text_plain (e : Entry) : ∀ c ∈ e.text ": ", c ≠ '{' ∧ c ≠ '}' := by
  intro c hc
  have hmem : c = '"' ∨ c ∈ e.name ∨ c = ':' ∨ c = ' ' ∨ c ∈ e.value := by
    simp only [text, key] at hc
    simp at hc
    tauto
  rcases hmem with rfl | hname | rfl | rfl | hvalue
  · decide
  · exact (e.name_plain c hname).2
  · decide
  · decide
  · exact e.value_plain c hvalue

theorem respelled_eq (h : ':' ∉ e.name) : respelled sep (e.text ": ") = e.text sep := by
  have hkey : strip e.key = e.key := by
    refine strip_eq_self_iff.mpr ⟨by simp [key, isBlank], fun c hc => ?_⟩
    rw [key, ← cons_append, getLast?_concat, Option.mem_some_iff] at hc
    rw [← hc]
    decide
  have hvalue : strip (' ' :: e.value) = e.value := by
    have hlead : ∀ c ∈ [' '], isBlank c = true := by decide
    have hparts := strip_append hlead e.value_stripped (forall_mem_nil _)
    rwa [append_nil] at hparts
  have hcut : cut ':' (e.text ": ") = (e.key, ' ' :: e.value) := cut_append (by simp [key, h]) _
  rw [respelled, hcut, hkey, hvalue, text, append_assoc]

/-- Cut inside its key, an entry does not keep the key. -/
theorem respelled_ne (hgap : ∀ c ∈ gap, isBlank c = true) (hc : isBlank c = false)
    (hcolon : c ≠ ':') (h : ':' ∈ e.name) :
    respelled (gap ++ c :: r) (e.text ": ") ++ t ≠ e.text (gap ++ c :: r) ++ u := by
  intro heq
  obtain ⟨x, y, hname, hx⟩ := eq_append_cons_of_mem h
  have hkey : ∀ v, e.key ++ v = '"' :: x ++ ':' :: (y ++ '"' :: v) := by
    intro v
    simp [key, hname]
  have hcut : (cut ':' (e.text ": ")).1 = '"' :: x := by rw [text, hkey, cut_append (by simp [hx])]
  -- Blanks before the colon are lost, and the separator starts where they stood.
  obtain ⟨lead, trail, hparts, hlead, htrail⟩ := strip_parts ('"' :: x)
  rw [append_assoc] at hparts
  obtain rfl := run_eq_nil hlead rfl hparts
  have hkept : strip ('"' :: x) ++ (gap ++ c :: (r ++ (strip (cut ':' (e.text ": ")).2 ++ t))) =
      strip ('"' :: x) ++ (trail ++ ':' :: (y ++ '"' :: (gap ++ c :: r ++ e.value ++ u))) := by
    calc _ = respelled (gap ++ c :: r) (e.text ": ") ++ t := by
          rw [respelled, hcut]
          simp
      _ = e.key ++ (gap ++ c :: r ++ e.value ++ u) := by rw [heq, text, append_assoc]
      _ = (strip ('"' :: x) ++ trail) ++ _ := by
        rw [hkey, ← nil_append (strip _ ++ trail), ← hparts]
      _ = _ := append_assoc ..
  exact hcolon (run_eq_of_append hgap htrail hc rfl (append_cancel_left hkept)).2.1

end Entry

theorem splitArguments_contents
    (h : ∀ e ∈ entries.dropLast, scanned (0, none) e.value = (0, none)) :
    splitArguments (contents ": " entries) = entries.map (Entry.text ": ") := by
  refine splitArguments_join (fun a ha => ?_) fun a ha => ?_
  · obtain ⟨e, -, rfl⟩ := mem_map.mp ha
    exact ⟨by simp [Entry.text, Entry.key], e.strip_text _, e.unseparated⟩
  · rw [← map_dropLast] at ha
    obtain ⟨e, he, rfl⟩ := mem_map.mp ha
    exact Entry.scanned_text (h e he)

/-- The entries are kept exactly if none is cut inside its key. -/
theorem respelled_contents_iff (hne : entries ≠ []) (hgap : ∀ c ∈ gap, isBlank c = true)
    (hc : isBlank c = false)
    (hcolon : c ≠ ':') (h : ∀ e ∈ entries.dropLast, scanned (0, none) e.value = (0, none)) :
    join ", " ((splitArguments (contents ": " entries)).map (respelled (gap ++ c :: r))) =
      contents (gap ++ c :: r) entries ↔ ∀ e ∈ entries, ':' ∉ e.name := by
  rw [splitArguments_contents h, contents, map_map, ← append_right_inj ", "]
  clear h
  obtain ⟨e, rest, rfl⟩ := exists_cons_of_ne_nil hne
  rw [map_cons, map_cons, join_cons, join_cons, ← append_assoc, ← append_assoc, ← flatMap_cons,
    ← flatMap_cons, ← map_cons, ← map_cons, flatMap_map, flatMap_map]
  generalize e :: rest = entries
  constructor
  · intro heq
    induction entries with
    | nil => simp
    | cons e entries ih =>
      rw [flatMap_cons, flatMap_cons, append_assoc, append_assoc, append_right_inj] at heq
      have hname : ':' ∉ e.name := fun hmem => Entry.respelled_ne hgap hc hcolon hmem heq
      rw [Function.comp_apply, Entry.respelled_eq hname, append_right_inj] at heq
      exact forall_mem_cons.mpr ⟨hname, ih heq⟩
  · intro hnames
    refine flatMap_congr fun e he => ?_
    rw [Function.comp_apply, Entry.respelled_eq (hnames e he)]

theorem collection_contents (hne : entries ≠ []) :
    ToJava.collection ('{' :: (contents ": " entries ++ ['}'])) =
      "new HashMap<>(Map.of(" ++
      join ", " ((splitArguments (contents ": " entries)).map (respelled ", ")) ++ "))" := by
  obtain ⟨e, rest, rfl⟩ := exists_cons_of_ne_nil hne
  have hcontents : contents ": " (e :: rest) ≠ [] := by
    cases rest <;> simp [contents, join_cons_cons, Entry.text, Entry.key]
  rw [ToJava.collection, if_neg (by simp), if_neg (by simp [startsWith]),
    if_neg (by simpa using hcontents), if_pos]
  · rw [drop_one, tail_cons, dropLast_concat]
    rfl
  · simp [startsWith, Text.endsWith]

/-- A dictionary is respelled entry by entry. -/
theorem arrays_contents (entries : List Entry) :
    ToPhp.arrays ('{' :: (contents ": " entries ++ ['}'])) =
      "array(" ++ join ", " ((splitArguments (contents ": " entries)).map (respelled " => ")) ++
      ")" := by
  have hplain : ∀ c ∈ contents ": " entries, c ≠ '{' ∧ c ≠ '}' := by
    intro c hc
    rcases mem_join hc with hsep | ⟨piece, hpiece, hin⟩
    · clear hc
      revert c
      decide
    · obtain ⟨e, -, rfl⟩ := mem_map.mp hpiece
      exact e.text_plain c hin
  have hrewritten : Rewritten (field "\x7b" (except "{}") true '}') ToPhp.array
      ('{' :: (contents ": " entries ++ ['}'])) ('{' :: (contents ": " entries ++ ['}']))
      (ToPhp.array (contents ": " entries) ++ []) :=
    Rewritten.found (.nil rfl) (fun c hc => by simp [except, hplain c hc]) (fun h =>
      (hplain _ h).2 rfl)
      fun _ => rfl
  rw [append_nil] at hrewritten
  exact hrewritten.replaceBy_eq

/-- A dictionary keeps its entries, in a map as in an array, exactly if no key has a colon in it. -/
theorem dictionary_keeps_entries_iff (hne : entries ≠ [])
    (hclosed : ∀ e ∈ entries.dropLast, scanned (0, none) e.value = (0, none)) :
    (ToJava.collection ('{' :: (contents ": " entries ++ ['}'])) =
        "new HashMap<>(Map.of(" ++ contents ", " entries ++ "))" ↔ ∀ e ∈ entries, ':' ∉ e.name) ∧
      (ToPhp.arrays ('{' :: (contents ": " entries ++ ['}'])) = "array(" ++
      contents " => " entries ++ ")" ↔ ∀ e ∈ entries, ':' ∉ e.name) := by
  rw [collection_contents hne, arrays_contents, append_left_inj, append_left_inj, append_right_inj,
    append_right_inj]
  exact ⟨@respelled_contents_iff entries [] [' '] ',' hne (by decide) (by decide)
    (by decide) hclosed,
    @respelled_contents_iff entries [' '] ['>', ' '] '=' hne (by decide) (by decide)
    (by decide) hclosed⟩

/-- Commas and colons inside of a value or a key are not taken for those between entries. -/
theorem dictionary_keeps_entries_iff_call : ∃ entries : List Entry,
    entries ≠ [] ∧ (∀ e ∈ entries.dropLast, scanned (0, none) e.value = (0, none)) ∧
      ToJava.collection ('{' :: (contents ": " entries ++ ['}'])) =
        "new HashMap<>(Map.of(\"f, g\", [f(1, 2), 'x:y'], \"h\", 3))" ∧
      ToPhp.arrays ('{' :: (contents ": " entries ++ ['}'])) =
        "array(\"f, g\" => [f(1, 2), 'x:y'], \"h\" => 3)" := by
  let entries : List Entry :=
    [⟨"f, g", "[f(1, 2), 'x:y']", by decide, by decide, by decide, by decide, by decide⟩,
      ⟨"h", "3", by decide, by decide, by decide, by decide, by decide⟩]
  have hclosed : ∀ e ∈ entries.dropLast, scanned (0, none) e.value = (0, none) := by decide
  have hkept := dictionary_keeps_entries_iff (cons_ne_nil _ _) hclosed
  have hnames : ∀ e ∈ entries, ':' ∉ e.name := by decide
  exact ⟨entries, cons_ne_nil _ _, hclosed, hkept.1.mpr hnames, hkept.2.mpr hnames⟩

/-- A key with a colon is cut in two, and after a value that leaves a bracket open the next key is
not found. -/
theorem dictionary_loses_entry :
    ToJava.collection "\x7b\"a:b\": 1\x7d" = "new HashMap<>(Map.of(\"a, b\": 1))" ∧
      ToPhp.arrays "\x7b\"a:b\": 1\x7d" = "array(\"a => b\": 1)" ∧
      ToJava.collection "\x7b\"a\": (, \"b\": 1\x7d" =
      "new HashMap<>(Map.of(\"a\", (, \"b\": 1))" := by
  decide +kernel

end Expression

end CodeConverter

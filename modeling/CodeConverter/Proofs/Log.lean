import CodeConverter.Log.Record
import CodeConverter.Proofs.Json.Roundtrip

/-!
# A record is one line

The text of a JSON value has printable ASCII characters only, so that no message can break the
line of its record.
-/

namespace CodeConverter

open Text Json
open List hiding dropPrefix?

namespace Json

/-- A text of printable ASCII characters. -/
abbrev Visible (t : Text) : Prop :=
  ∀ c ∈ t, 0x20 ≤ c.toNat ∧ c.toNat ≤ 0x7e

variable {t u : Text} {fields : List (Text × Json)}

theorem Visible.append (ht : Visible t) (hu : Visible u) : Visible (t ++ u) :=
  forall_mem_append.mpr ⟨ht, hu⟩

/-! ## Strings -/

theorem visible_hexDigits (size n : Nat) : Visible (hexDigits size n) := by
  have hdigit : ∀ m : Fin 16, Visible [hexDigit m] := by decide
  induction size generalizing n with
  | zero => exact forall_mem_nil _
  | succ size ih => exact (ih _).append (hdigit ⟨n % 16, Nat.mod_lt _ (by decide)⟩)

theorem visible_unicodeEscape (code : Nat) : Visible (unicodeEscape code) :=
  Visible.append (t := ['\\', 'u']) (by decide) (visible_hexDigits 4 code)

theorem visible_escapeChar (c : Char) : Visible (escapeChar c) := by
  unfold escapeChar
  repeat' split
  all_goals try decide
  · rename_i hrange
    rw [Bool.and_eq_true, decide_eq_true_eq, decide_eq_true_eq] at hrange
    exact forall_mem_singleton.mpr hrange
  · exact visible_unicodeEscape _
  · exact (visible_unicodeEscape _).append (visible_unicodeEscape _)

theorem visible_quoted {α : Type} {escape : α → Text} (h : ∀ a, Visible (escape a)) (as : List α) :
    Visible ('\x22' :: (as.flatMap escape ++ ['\x22'])) := by
  refine .append (t := ['\x22']) (by decide) (.append (fun c hc => ?_) (by decide))
  obtain ⟨a, -, ha⟩ := mem_flatMap.mp hc
  exact h a c ha

theorem visible_quote (t : Text) : Visible (quote t) :=
  visible_quoted visible_escapeChar t

/-- Broken strings are visible too. -/
theorem visible_ofCodes (codes : Codes) : Visible (render (.ofCodes codes)) := by
  have hcode : ∀ code, Visible (escapeCode code) := by
    intro code
    unfold escapeCode
    split
    · exact visible_escapeChar _
    · exact visible_unicodeEscape code
  unfold ofCodes
  split
  · rw [render]
    exact visible_quote _
  · rw [render]
    exact visible_quoted hcode codes

/-! ## Values -/

theorem visible_renderItems {items : List Json} (h : ∀ item ∈ items, Visible (render item)) :
    Visible (renderItems items) := by
  induction items with
  | nil => exact forall_mem_nil _
  | cons item items ih =>
    obtain ⟨hitem, hitems⟩ := forall_mem_cons.mp h
    cases items with
    | nil =>
      rw [renderItems]
      exact hitem
    | cons next items =>
      rw [renderItems]
      exact (hitem.append (by decide)).append (ih hitems)

theorem visible_renderFields (h : ∀ f ∈ fields, Visible (render f.2)) :
    Visible (renderFields fields) := by
  induction fields with
  | nil => exact forall_mem_nil _
  | cons f fields ih =>
    obtain ⟨hf, hfields⟩ := forall_mem_cons.mp h
    have hfield : Visible (quote f.1 ++ ": " ++ render f.2) :=
      ((visible_quote f.1).append (by decide)).append hf
    cases fields with
    | nil =>
      rw [renderFields]
      exact hfield
    | cons next fields =>
      rw [renderFields]
      exact (hfield.append (by decide)).append (ih hfields)

theorem visible_object (h : ∀ f ∈ fields, Visible (render f.2)) :
    Visible (render (.object fields)) := by
  rw [render]
  exact (Visible.append (by decide) (visible_renderFields h)).append (by decide)

/-- A value is written in printable characters. -/
theorem Plain.visible {v : Json} (h : Plain v) : Visible (render v) := by
  induction h with
  | null => decide
  | bool value => cases value <;> decide
  | @int value _ =>
    intro c hc
    rw [render] at hc
    rcases mem_signedDecimal hc with hdigit | rfl
    · obtain ⟨hlow, hhigh⟩ := Char.isDigit_iff_toNat.mp hdigit
      exact ⟨Nat.le_trans (by decide) hlow, Nat.le_trans hhigh (by decide)⟩
    · decide
  | string text =>
    rw [render]
    exact visible_quote text
  | array _ ih =>
    rw [render]
    exact (Visible.append (by decide) (visible_renderItems ih)).append (by decide)
  | object _ _ ih => exact visible_object ih

end Json

namespace Log.Record

/-- The fields that a line has for the error of a record: the report of the error, less one line
feed at its end. -/
def ShowsError : Option Text → List (Text × Json) → Prop
  | none, shown => shown = []
  | some report, shown => ∃ text, shown = [("exception".toList, .string text)] ∧
    (report = text ++ "\n" ∨ report = text ∧ ∀ front, report ≠ front ++ "\n")

theorem showsError_errorFields (error : Option Text) : ShowsError error (errorFields error) := by
  cases error with
  | none => rfl
  | some report =>
    refine ⟨errorText report, rfl, ?_⟩
    unfold errorText
    split
    · rename_i hlast
      exact .inl (dropLast_append_getLast? _ hlast).symm
    · rename_i hlast
      refine .inr ⟨rfl, fun front hfront => hlast ?_⟩
      rw [hfront]
      exact getLast?_concat

/-- A record whose message can be filled in is written as one line of printable ASCII characters,
whatever its texts are. If the message is Unicode text, the line reads back as the object with just
the values of the record. A message without arguments is filled in as it stands. -/
theorem structured_reads_back (r : Record) (time : Text) (message : Codes)
    (hline : Plain r.line) (hfilled : r.filled = .ok message) :
    (r.arguments = [] → message = codes r.message) ∧ ∃ line, r.structured time = .ok line ∧
      (∀ c ∈ line, 0x20 ≤ c.toNat ∧ c.toNat ≤ 0x7e) ∧
      ∀ text, message = codes text → ∃ shown, ShowsError r.error shown ∧
        parse? line = some (.object ([
          ("timestamp".toList, .string time), ("level".toList, .string r.levelName),
          ("logger".toList, .string r.logger), ("message".toList, .string text),
          ("module".toList, .string r.moduleName), ("function".toList, .ofText? r.function),
          ("line".toList, r.line)] ++ shown)) := by
  have hfunction : Plain (.ofText? r.function) := by
    cases r.function with
    | none => exact .null
    | some name => exact .string name
  have herror : ∀ f ∈ errorFields r.error, Plain f.2 := by
    cases r.error with
    | none => exact forall_mem_nil _
    | some error => exact forall_mem_singleton.mpr (.string _)
  have hnames : ((r.fields time message).map Prod.fst).Nodup := by
    unfold fields
    cases r.error <;> simp [errorFields]
  refine ⟨fun harguments => ?_, _, by rw [structured, hfilled]; rfl, visible_object ?_, ?_⟩
  · rw [filled, harguments] at hfilled
    exact (Except.ok.inj hfilled).symm
  · simp only [fields, forall_mem_cons]
    exact ⟨(Plain.string _).visible, (Plain.string _).visible,
      (Plain.string _).visible,
      visible_ofCodes message, (Plain.string _).visible, hfunction.visible, hline.visible,
      fun f hf => (herror f hf).visible⟩
  · rintro text rfl
    have hplain : ∀ f ∈ r.fields time (codes text), Plain f.2 := by
      simp only [fields, forall_mem_cons, ofCodes_codes]
      exact ⟨.string _, .string _, .string _, .string _, .string _, hfunction, hline, herror⟩
    refine ⟨errorFields r.error, showsError_errorFields r.error, ?_⟩
    rw [parse?_render (.object hnames hplain), fields, ofCodes_codes]
    rfl

/-- A message with a line feed, a quote, a backslash and a character beyond the basic plane, and an
error with a traceback. -/
theorem structured_reads_back_escapes :
    let r : Record := ⟨"app", "INFO", "main", .int 7, none, "%s\n\x22", [.string "\\😀"],
      some "Traceback:\n  f()\nKeyError: 'k'\n", 0⟩
    r.filled = .ok (codes "\\😀\n\x22") ∧ ∃ line fields, r.structured "now" = .ok line ∧
      (∀ c ∈ line, c ≠ '\n') ∧ parse? line = some (.object fields) ∧
      field? "message" fields = some (.string "\\😀\n\x22") := by
  intro r
  have hfilled : r.filled = .ok (codes "\\😀\n\x22") := rfl
  obtain ⟨-, line, hline, hvisible, hread⟩ :=
    structured_reads_back r "now" _ (.int (by decide)) hfilled
  obtain ⟨shown, -, hparse⟩ := hread _ rfl
  refine ⟨hfilled, line, _, hline, fun c hc hfeed => ?_, hparse, rfl⟩
  have hlow := (hvisible c hc).1
  rw [hfeed] at hlow
  exact absurd hlow (by decide)

end Log.Record

end CodeConverter

import CodeConverter.Service.Model
import Mathlib.Data.List.Forall2

/-!
# What is asked of a validation library

The service works with every library that keeps the rules of `Validation.Lawful`, which say how
values, fields and objects are checked and which errors they have. The standard validation is one.
-/

namespace CodeConverter.Service

open List

variable {α β : Type} {v : Validation} {fields : List (Text × Json)} {name : FieldName}

namespace Checked

/-- The value has just one error, which is about the value as a whole. -/
def Refused (x : Checked α) : Prop :=
  ∃ kind message, x = .error [⟨[], kind, message⟩]

/-- The value passes as the given one. If none is given, it is refused. -/
def Decides (x : Checked α) : Option α → Prop
  | some a => x = .ok a
  | none => x.Refused

theorem map_eq_ok_iff {f : α → β} {x : Checked α} {b : β} :
    x.map f = .ok b ↔ ∃ a, x = .ok a ∧ f a = b := by
  cases x <;> simp [map]

theorem inside_eq_ok_iff {x : Checked α} {name : Text} {a : α} :
    x.inside name = .ok a ↔ x = .ok a := by
  cases x <;> simp [inside]

end Checked

/-- Some fields give a text under a name. -/
def Gives (fields : List (Text × Json)) (name : FieldName) (text : Text) : Prop :=
  (name.find? fields).map Prod.snd = some (.string text)

/-- The text of a string. -/
def textOf? : Json → Option Text
  | .string t => some t
  | _ => none

/-- The rules of a validation library. -/
structure Validation.Lawful (v : Validation) : Prop where
  /-- A string passes as its text, and nothing else passes. -/
  text : ∀ value, (v.text value).Decides (textOf? value)
  /-- An integer passes as it is. -/
  integer : ∀ n, v.integer (.int n) = .ok n
  /-- A text that can be chosen passes as its value, and nothing else passes. -/
  choice : ∀ {α : Type} (choices : List (Text × α)) (value : Json),
    (v.choice choices value).Decides ((textOf? value).bind fun t => choices.lookup t)
  /-- A list passes if all its items do. -/
  list : ∀ {α : Type} {item : Json → Checked α} {values : List Json} {as : List α},
    Forall₂ (fun value a => item value = .ok a) values as → v.list item (.array values) = .ok as
  /-- A value that fails its check keeps its errors. -/
  unvalidated : ∀ {α : Type} {check : Json → Checked α} (accept : α → Except Objection α)
    {value : Json} {errors : List FieldError}, check value = .error errors →
      v.validated check accept value = .error errors
  /-- A value that passes its check goes through the validator, whose objection in words is the
  only error. -/
  validated : ∀ {α : Type} {check : Json → Checked α} (accept : α → Except Objection α)
    {value : Json} {a : α}, check value = .ok a →
      (v.validated check accept value).Decides (accept a).toOption ∨
        ∃ failed errors, accept a = .error (.failed failed) ∧
          v.validated check accept value = .error errors
  /-- The errors of a field stand under the name that it was found by. -/
  required : ∀ {α : Type} {name : FieldName} (check : Json → Checked α)
    {fields : List (Text × Json)} {found : Text} {value : Json},
    name.find? fields = some (found, value) →
      v.required name check fields = (check value).inside found
  /-- A missing field has one error under its first name. -/
  missing : ∀ {α : Type} {name : FieldName} (check : Json → Checked α)
    {fields : List (Text × Json)}, name.find? fields = none →
      ∃ kind message, v.required name check fields = .error [⟨[name.camel], kind, message⟩]
  /-- A field that may be null is checked if it is not. -/
  optional : ∀ {α : Type} {name : FieldName} (check : Json → Checked α)
    {fields : List (Text × Json)} {found : Text} {value : Json},
    name.find? fields = some (found, value) → value ≠ .null →
      v.optional name check fields = ((check value).map some).inside found
  /-- A field that may be null may be missing as well. -/
  omitted : ∀ {α : Type} {name : FieldName} (check : Json → Checked α)
    {fields : List (Text × Json)}, (∀ entry ∈ name.find? fields, entry.2 = .null) →
      v.optional name check fields = .ok none
  /-- A model has the values of its fields. -/
  field : ∀ {α β : Type} (f : α → β) (a : α), v.field (.ok f) (.ok a) = .ok (f a)
  /-- The errors of a field behind fields that passed are all errors so far. -/
  field_right : ∀ {α β : Type} (f : α → β) (errors : List FieldError),
    v.field (.ok f) (.error errors) = .error errors
  /-- The errors of a field follow those of the fields before it. -/
  field_left : ∀ {α β : Type} (errors : List FieldError) (x : Checked α),
    v.field (.error errors : Checked (α → β)) x =
      .error (errors ++ match x with | .ok _ => [] | .error more => more)
  /-- A model is read from the fields of an object. -/
  object : ∀ {α : Type} (model : Text) (check : List (Text × Json) → Checked α)
    (fields : List (Text × Json)), v.object model check (.object fields) = check fields
  /-- Nothing else is read as a model. -/
  noObject : ∀ {α : Type} (model : Text) (check : List (Text × Json) → Checked α)
    {value : Json}, (∀ fields, value ≠ .object fields) → (v.object model check value).Refused

theorem checkItems_of_forall₂ {item : Json → Checked α} {values : List Json} {as : List α}
    (h : Forall₂ (fun value a => item value = .ok a) values as) (index : Nat) :
    checkItems item index values = .ok as := by
  induction h generalizing index with
  | nil => rfl
  | cons hitem _ ih =>
    rw [checkItems, hitem, ih]
    rfl

theorem decides_choice (choices : List (Text × α)) (value : Json) :
    (checkChoice choices value).Decides ((textOf? value).bind fun t => choices.lookup t) := by
  cases value with
  | string t =>
    show Checked.Decides _ (choices.lookup t)
    cases hchoice : choices.lookup t with
    | none => exact ⟨_, _, by simp only [checkChoice, hchoice]; rfl⟩
    | some a => simp only [checkChoice, hchoice, Checked.Decides]
  | _ => exact ⟨_, _, rfl⟩

theorem decides_validated {check : Json → Checked α} (accept : α → Except Objection α)
    {value : Json} {a : α} (hcheck : check value = .ok a) :
    (checkValidated check accept value).Decides (accept a).toOption ∨
      ∃ failed errors, accept a = .error (.failed failed) ∧
        checkValidated check accept value = .error errors := by
  simp only [checkValidated, hcheck, bind, Except.bind]
  cases accept a with
  | ok b => exact .inl rfl
  | error objection =>
    cases objection with
    | worded message => exact .inl ⟨_, _, rfl⟩
    | failed errors => exact .inr ⟨errors, errors, rfl, rfl⟩

theorem checkOptional_of_null {check : Json → Checked α}
    (h : ∀ entry ∈ name.find? fields, entry.2 = .null) :
    checkOptional name check fields = .ok none := by
  unfold checkOptional
  cases hfind : name.find? fields with
  | none => rfl
  | some entry =>
    obtain ⟨found, value⟩ := entry
    obtain rfl : value = .null := h _ hfind
    rfl

/-- The standard validation keeps the rules. -/
theorem lawful_standard : Validation.standard.Lawful where
  text value := by
    cases value with
    | string t => rfl
    | _ => exact ⟨_, _, rfl⟩
  integer _ := rfl
  choice := decides_choice
  list h := checkItems_of_forall₂ h 0
  unvalidated accept value errors h := by
    show checkValidated _ accept value = _
    rw [checkValidated, h]
    rfl
  validated := decides_validated
  required check fields found value h := by
    show checkRequired _ check fields = _
    rw [checkRequired, h]
  missing check fields h := by
    refine ⟨Cause.missing.kind, Cause.missing.message, ?_⟩
    show checkRequired _ check fields = _
    rw [checkRequired, h]
    rfl
  optional check fields found value h hnull := by
    show checkOptional _ check fields = _
    rw [checkOptional, h]
    cases value <;> first | rfl | exact absurd rfl hnull
  omitted _ _ h := checkOptional_of_null h
  field _ _ := rfl
  field_right _ _ := rfl
  field_left errors x := by
    cases x with
    | ok a => exact congrArg Except.error (append_nil errors).symm
    | error more => rfl
  object _ _ _ := rfl
  noObject model check value h := by
    cases value with
    | object fields => exact absurd rfl (h fields)
    | _ => exact ⟨_, _, rfl⟩

/-! ## What passes -/

namespace Validation.Lawful

variable (hv : v.Lawful)

include hv

theorem text_eq_ok_iff {value : Json} {t : Text} : v.text value = .ok t ↔ value = .string t := by
  have htext := hv.text value
  cases value with
  | string u =>
    rw [show v.text (.string u) = .ok u from htext]
    simp
  | _ =>
    obtain ⟨kind, message, hrefused⟩ := htext
    simp [hrefused]

theorem field_eq_ok_iff {f : Checked (α → β)} {x : Checked α} {b : β} :
    v.field f x = .ok b ↔ ∃ g a, f = .ok g ∧ x = .ok a ∧ g a = b := by
  cases f with
  | error errors => simp [hv.field_left]
  | ok g =>
    cases x with
    | error errors => simp [hv.field_right]
    | ok a => simp [hv.field]

theorem required_eq_ok_iff {check : Json → Checked α} {a : α} :
    v.required name check fields = .ok a ↔
      ∃ value, (name.find? fields).map Prod.snd = some value ∧ check value = .ok a := by
  cases hfind : name.find? fields with
  | none =>
    obtain ⟨kind, message, hmissing⟩ := hv.missing check hfind
    simp [hmissing]
  | some entry => simp [hv.required check hfind, Checked.inside_eq_ok_iff]

theorem requiredText_eq_ok_iff {t : Text} :
    v.required name v.text fields = .ok t ↔ Gives fields name t := by
  simp [hv.required_eq_ok_iff, hv.text_eq_ok_iff, Gives]

/-- A validated value passed both checks. -/
theorem exists_of_validated {check : Json → Checked α} {accept : α → Except Objection α}
    {value : Json} {b : α} (h : v.validated check accept value = .ok b) :
    ∃ a, check value = .ok a ∧ accept a = .ok b := by
  cases hcheck : check value with
  | error errors =>
    rw [hv.unvalidated accept hcheck] at h
    cases h
  | ok a =>
    refine ⟨a, rfl, ?_⟩
    obtain hdecides | ⟨failed, errors, -, herror⟩ := hv.validated accept hcheck
    · rw [h] at hdecides
      cases haccept : accept a with
      | ok c =>
        rw [haccept] at hdecides
        rw [show c = b from (Except.ok.inj hdecides).symm]
      | error objection =>
        rw [haccept] at hdecides
        obtain ⟨kind, message, herror⟩ := hdecides
        cases herror
    · rw [herror] at h
      cases h

end Validation.Lawful

end CodeConverter.Service

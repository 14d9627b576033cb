import CodeConverter.Service.Scalar

/-!
# The standard validation

The validation that the service runs with. The errors of several fields are collected in order.
-/

namespace CodeConverter.Service

open Text

variable {α β : Type}

/-- A model with some of its fields, and its next field. Their errors stand in this order. -/
def Checked.field : Checked (α → β) → Checked α → Checked β
  | .ok f, .ok a => .ok (f a)
  | .ok _, .error errors => .error errors
  | .error errors, .ok _ => .error errors
  | .error errors, .error more => .error (errors ++ more)

/-- The items of an array, counted from `index`. -/
def checkItems (item : Json → Checked α) : Nat → List Json → Checked (List α)
  | _, [] => .ok []
  | index, value :: rest =>
    (((item value).inside (decimal index)).map List.cons).field (checkItems item (index + 1) rest)

/-- An array of items. -/
def checkList (item : Json → Checked α) : Json → Checked (List α)
  | .array items => checkItems item 0 items
  | _ => .fail .notList

/-- One of several texts. -/
def checkChoice (choices : List (Text × α)) : Json → Checked α
  | .string t =>
    match choices.lookup t with
    | some a => .ok a
    | none => .fail (.notChosen (choices.map Prod.fst))
  | _ => .fail (.notChosen (choices.map Prod.fst))

/-- A value that passes a check and then a validator. -/
def checkValidated (check : Json → Checked α) (accept : α → Except Objection α) (value : Json) :
    Checked α := do
  match accept (← check value) with
  | .ok a => .ok a
  | .error (.worded message) => .fail (.refused message)
  | .error (.failed errors) => .error errors

/-- A field that has to be present. -/
def checkRequired (name : FieldName) (check : Json → Checked α) (fields : List (Text × Json)) :
    Checked α :=
  match name.find? fields with
  | some (found, value) => (check value).inside found
  | none => (Checked.fail .missing).inside name.camel

/-- A field that may be absent or null. -/
def checkOptional (name : FieldName) (check : Json → Checked α) (fields : List (Text × Json)) :
    Checked (Option α) :=
  match name.find? fields with
  | some (_, .null) => .ok none
  | some (found, value) => ((check value).map some).inside found
  | none => .ok none

/-- An object with the fields of a model. -/
def checkObject (model : Text) (check : List (Text × Json) → Checked α) : Json → Checked α
  | .object fields => check fields
  | _ => .fail (.notObject model)

/-- The validation that the service runs with. -/
def Validation.standard : Validation where
  text := checkText
  integer := checkInteger
  boolean := checkBoolean
  choice := checkChoice
  list := checkList
  validated := checkValidated
  required := checkRequired
  optional := checkOptional
  field := Checked.field
  object := checkObject
  report errors := join "\n" (errors.map fun e => e.field ++ "\n" ++ e.message)

end CodeConverter.Service

import CodeConverter.Json.Value

/-!
# Checked values

A check turns a JSON value into a value of the service or lists what is wrong with it. Models are
declared with the checks of a validation library, which is a parameter of the service: `Validation`
has what the declarations use of it.
-/

namespace CodeConverter.Service

open Text

/-- What is wrong with a value, and the path to the value at fault. -/
structure FieldError where
  path : List Text
  kind : Text
  message : Text
  deriving DecidableEq

/-- The path with its parts separated by points. -/
def FieldError.field (e : FieldError) : Text :=
  join "." e.path

/-- A value that passed its checks, or the errors in order. -/
abbrev Checked (α : Type) := Except (List FieldError) α

namespace Checked

variable {α β : Type}

/-- The check of a value that stands under a name. -/
def inside (name : Text) : Checked α → Checked α
  | .ok a => .ok a
  | .error errors => .error (errors.map fun e => { e with path := name :: e.path })

/-- Applies a function to a checked value. -/
def map (f : α → β) : Checked α → Checked β
  | .ok a => .ok (f a)
  | .error errors => .error errors

end Checked

/-- The two names of a field: requests and responses use the first, but either is understood. -/
structure FieldName where
  camel : Text
  snake : Text
  deriving DecidableEq

/-- A name that is spelled the same in both styles. -/
def FieldName.plain (name : Text) : FieldName :=
  ⟨name, name⟩

/-- The field under the first of its names that is present, with that name. -/
def FieldName.find? (name : FieldName) (fields : List (Text × Json)) : Option (Text × Json) :=
  match Json.field? name.camel fields with
  | some value => some (name.camel, value)
  | none => (Json.field? name.snake fields).map (name.snake, ·)

/-- Why a validator of the service refuses a value. -/
inductive Objection where
  | worded (message : Text)
  /-- The validator relies on a check that failed. -/
  | failed (errors : List FieldError)

/-- What the declarations of models use of a validation library. -/
structure Validation where
  text : Json → Checked Text
  integer : Json → Checked Int
  boolean : Json → Checked Bool
  /-- One of several texts, each of which stands for a value. -/
  choice {α : Type} : List (Text × α) → Json → Checked α
  /-- An array of items. -/
  list {α : Type} : (Json → Checked α) → Json → Checked (List α)
  /-- A value that passes a check and then a validator. -/
  validated {α : Type} : (Json → Checked α) → (α → Except Objection α) → Json → Checked α
  /-- A field that has to be present. -/
  required {α : Type} : FieldName → (Json → Checked α) → List (Text × Json) → Checked α
  /-- A field that may be absent or null. -/
  optional {α : Type} : FieldName → (Json → Checked α) → List (Text × Json) → Checked (Option α)
  /-- A model with some of its fields, and its next field. -/
  field {α β : Type} : Checked (α → β) → Checked α → Checked β
  /-- An object with the fields of a model, which has a name. -/
  object {α : Type} : Text → (List (Text × Json) → Checked α) → Json → Checked α
  /-- The wording of all errors together. -/
  report : List FieldError → Text

end CodeConverter.Service

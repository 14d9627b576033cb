import CodeConverter.Service.Model

/-!
# The history of conversions

Records are kept under numbers that a counter gives. A record that fails its checks is not kept and
uses up no number.
-/

namespace CodeConverter.Service

/-- The records by their numbers, in the order in which the numbers came, and the next number. -/
structure History where
  records : List (Int × Record)
  nextId : Int

/-- The values that are to be recorded about a conversion. -/
structure Draft where
  sourceCode : Json
  targetCode : Json
  sourceLanguage : Json
  targetLanguage : Json
  explanation : Json

/-- The fields of a record that is made of a draft. -/
def Draft.fields (d : Draft) (id : Int) (time : Text) : List (Text × Json) := [
  (Field.id.snake, .int id), (Field.sourceCode.snake, d.sourceCode),
  (Field.targetCode.snake, d.targetCode), (Field.sourceLanguage.snake, d.sourceLanguage),
  (Field.targetLanguage.snake, d.targetLanguage), (Field.explanation.snake, d.explanation),
  (Field.createdAt.snake, .string time)]

/-- Why a value cannot be the number of a record. -/
inductive KeyFault where
  | array
  | object
  deriving DecidableEq

/-- The wording of a failure. -/
def KeyFault.message : KeyFault → Text
  | .array => "unhashable type: 'list'"
  | .object => "unhashable type: 'dict'"

namespace History

/-- The history of a new service. -/
def empty : History :=
  ⟨[], 1⟩

/-- The records with one more. A record under the same number is replaced in its place. -/
def put (id : Int) (record : Record) : List (Int × Record) → List (Int × Record)
  | [] => [(id, record)]
  | (key, old) :: rest =>
    if key = id then (key, record) :: rest else (key, old) :: put id record rest

/-- Makes a record of a draft and keeps it, if the draft passes its checks. -/
def create (v : Validation) (h : History) (time : Text) (d : Draft) :
    Checked (Record × History) := do
  let record ← Record.check v (.object (d.fields h.nextId time))
  return (record, ⟨put record.id record h.records, h.nextId + 1⟩)

/-- The record under a number. -/
def get? (h : History) (id : Int) : Option Record :=
  h.records.lookup id

/-- The record whose number is given by a value: by a number of any kind or by a truth value. -/
def find (h : History) : Json → Except KeyFault (Option Record)
  | .int n => .ok (h.get? n)
  | .float x => .ok (x.toInt?.bind h.get?)
  | .bool b => .ok (h.get? (if b then 1 else 0))
  | .array _ => .error .array
  | .object _ => .error .object
  | _ => .ok none

/-- All records, the greatest number first. -/
def list (h : History) : List Record :=
  (h.records.map Prod.snd).mergeSort fun a b => b.id ≤ a.id

end History

end CodeConverter.Service

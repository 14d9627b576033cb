import CodeConverter.Registry
import CodeConverter.Service.Settings

/-!
# Requests and responses

The objects that the service receives, keeps and sends, each with its declaration, which says how it
is checked, and its JSON object.
-/

namespace CodeConverter.Service

open Text

/-- How the names of fields are written. -/
inductive KeyStyle where
  | camel
  | snake
  deriving DecidableEq

/-- The name of a field in a style. -/
def FieldName.key (name : FieldName) : KeyStyle → Text
  | .camel => name.camel
  | .snake => name.snake

namespace Field

/-- The code that is converted. -/
def sourceCode : FieldName := ⟨"sourceCode", "source_code"⟩
/-- The code that it is converted to. -/
def targetCode : FieldName := ⟨"targetCode", "target_code"⟩
/-- The tag of the language of the source. -/
def sourceLanguage : FieldName := ⟨"sourceLanguage", "source_language"⟩
/-- The tag of the language of the target. -/
def targetLanguage : FieldName := ⟨"targetLanguage", "target_language"⟩
/-- The audience of the explanation. -/
def skillLevel : FieldName := ⟨"skillLevel", "skill_level"⟩
/-- The title of a step. -/
def title : FieldName := .plain "title"
/-- What is said about a step or a conversion. -/
def explanation : FieldName := .plain "explanation"
/-- The steps of an explanation. -/
def stepByStep : FieldName := ⟨"stepByStep", "step_by_step"⟩
/-- The summary of an explanation. -/
def highLevel : FieldName := ⟨"highLevel", "high_level"⟩
/-- How the two languages differ. -/
def languageDifferences : FieldName := ⟨"languageDifferences", "language_differences"⟩
/-- The number of a record or the tag of a language. -/
def id : FieldName := .plain "id"
/-- The time at which a record was made. -/
def createdAt : FieldName := ⟨"createdAt", "created_at"⟩
/-- The name of a language. -/
def displayName : FieldName := ⟨"displayName", "display_name"⟩
/-- Whether a language has conversions. -/
def supported : FieldName := .plain "supported"

end Field

/-- The audience an explanation is written for. -/
inductive SkillLevel where
  | beginner
  | intermediate
  | advanced
  deriving DecidableEq

namespace SkillLevel

/-- The text that stands for a level. -/
def name : SkillLevel → Text
  | .beginner => "beginner"
  | .intermediate => "intermediate"
  | .advanced => "advanced"

/-- The levels with their texts. -/
def named : List (Text × SkillLevel) :=
  [beginner, intermediate, advanced].map fun level => (level.name, level)

end SkillLevel

/-- A request to convert code. -/
structure ConvertRequest where
  sourceCode : Text
  sourceLanguage : Text
  targetLanguage : Text
  skillLevel : Option SkillLevel
  deriving DecidableEq

namespace ConvertRequest

/-- The greatest length of a source. If the settings are refused, so is the source. -/
def sourceLimit : Except SettingsFault Settings → Except Objection Int
  | .ok settings => .ok settings.maxSourceLength
  | .error (.unreadable name) => .error (.worded (unreadableVariable name))
  | .error (.invalid errors) => .error (.failed errors)

/-- A source may not be blank and not longer than the limit. The settings are asked only if it is
not blank. -/
def acceptSource (settings : Except SettingsFault Settings) (t : Text) : Except Objection Text := do
  if (strip t).isEmpty then .error (.worded "Source code is required")
  else
    let limit ← sourceLimit settings
    if limit < t.length then
      .error (.worded ("Source code is longer than " ++ signedDecimal limit ++ " characters"))
    else .ok t

/-- A language has to be catalogued. -/
def acceptLanguage (t : Text) : Except Objection Text :=
  if Language.isKnown t then .ok t else .error (.worded ("Unknown language '" ++ t ++ "'"))

/-- The declaration of a request. -/
def check (v : Validation) (settings : Except SettingsFault Settings) :
    Json → Checked ConvertRequest :=
  v.object "ConvertCodeRequest" fun fields =>
    let source := v.required Field.sourceCode (v.validated v.text (acceptSource settings)) fields
    let language (name : FieldName) := v.required name (v.validated v.text acceptLanguage) fields
    let level := v.optional Field.skillLevel (v.choice SkillLevel.named) fields
    v.field (v.field (v.field (source.map ConvertRequest.mk) (language Field.sourceLanguage))
      (language Field.targetLanguage)) level

/-- The object of a request. -/
def toJson (style : KeyStyle) (r : ConvertRequest) : Json :=
  .object [
    (Field.sourceCode.key style, .string r.sourceCode),
    (Field.sourceLanguage.key style, .string r.sourceLanguage),
    (Field.targetLanguage.key style, .string r.targetLanguage),
    (Field.skillLevel.key style, .ofText? (r.skillLevel.map SkillLevel.name))]

end ConvertRequest

end CodeConverter.Service

namespace CodeConverter.ExplanationStep

open Service

/-- The declaration of a step. -/
def check (v : Validation) : Json → Checked ExplanationStep :=
  v.object "ConversionStep" fun fields =>
    let text (name : FieldName) := v.required name v.text fields
    v.field (v.field (v.field ((text Field.title).map ExplanationStep.mk) (text Field.sourceCode))
      (text Field.targetCode)) (text Field.explanation)

/-- The object of a step. -/
def toJson (style : KeyStyle) (s : ExplanationStep) : Json :=
  .object [
    (Field.title.key style, .string s.title),
    (Field.sourceCode.key style, .string s.sourceCode),
    (Field.targetCode.key style, .string s.targetCode),
    (Field.explanation.key style, .string s.explanation)]

end CodeConverter.ExplanationStep

namespace CodeConverter.Explanation

open Service

/-- The declaration of an explanation. -/
def check (v : Validation) : Json → Checked Explanation :=
  v.object "Explanation" fun fields =>
    let steps := v.required Field.stepByStep (v.list (ExplanationStep.check v)) fields
    v.field (v.field (steps.map Explanation.mk) (v.required Field.highLevel v.text fields))
      (v.required Field.languageDifferences v.text fields)

/-- The object of an explanation. -/
def toJson (style : KeyStyle) (e : Explanation) : Json :=
  .object [
    (Field.stepByStep.key style, .array (e.steps.map (ExplanationStep.toJson style))),
    (Field.highLevel.key style, .string e.highLevel),
    (Field.languageDifferences.key style, .string e.languageDifferences)]

end CodeConverter.Explanation

namespace CodeConverter.Service

/-- The answer to a request to convert code, with the number of its record. -/
structure ConvertResponse where
  id : Int
  targetCode : Text
  explanation : Explanation
  deriving DecidableEq

namespace ConvertResponse

/-- The declaration of an answer. -/
def check (v : Validation) : Json → Checked ConvertResponse :=
  v.object "ConvertCodeResponse" fun fields =>
    let id := v.required Field.id v.integer fields
    v.field (v.field (id.map ConvertResponse.mk) (v.required Field.targetCode v.text fields))
      (v.required Field.explanation (Explanation.check v) fields)

/-- The object of an answer. -/
def toJson (style : KeyStyle) (r : ConvertResponse) : Json :=
  .object [
    (Field.id.key style, .int r.id),
    (Field.targetCode.key style, .string r.targetCode),
    (Field.explanation.key style, r.explanation.toJson style)]

end ConvertResponse

/-- A stored conversion. Its explanation is kept as JSON text. -/
structure Record where
  id : Int
  sourceCode : Text
  targetCode : Text
  sourceLanguage : Text
  targetLanguage : Text
  explanation : Text
  createdAt : Text
  deriving DecidableEq

namespace Record

/-- The declaration of a record. -/
def check (v : Validation) : Json → Checked Record :=
  v.object "ConversionRecord" fun fields =>
    let id := v.required Field.id v.integer fields
    let text (name : FieldName) := v.required name v.text fields
    let code := v.field (v.field (id.map Record.mk) (text Field.sourceCode)) (text Field.targetCode)
    let languages := v.field (v.field code (text Field.sourceLanguage)) (text Field.targetLanguage)
    v.field (v.field languages (text Field.explanation)) (text Field.createdAt)

/-- The object of a record. -/
def toJson (style : KeyStyle) (r : Record) : Json :=
  .object [
    (Field.id.key style, .int r.id),
    (Field.sourceCode.key style, .string r.sourceCode),
    (Field.targetCode.key style, .string r.targetCode),
    (Field.sourceLanguage.key style, .string r.sourceLanguage),
    (Field.targetLanguage.key style, .string r.targetLanguage),
    (Field.explanation.key style, .string r.explanation),
    (Field.createdAt.key style, .string r.createdAt)]

end Record

/-- A catalogued language as it is listed. -/
structure LanguageInfo where
  id : Text
  displayName : Text
  supported : Bool
  deriving DecidableEq

namespace LanguageInfo

/-- The listed form of a language. -/
def ofLanguage (l : Language) : LanguageInfo :=
  ⟨l.tag, l.displayName, Registry.hasLanguage l.tag⟩

/-- The declaration of a listed language. -/
def check (v : Validation) : Json → Checked LanguageInfo :=
  v.object "LanguageInfo" fun fields =>
    let id := v.required Field.id v.text fields
    v.field (v.field (id.map LanguageInfo.mk) (v.required Field.displayName v.text fields))
      (v.required Field.supported v.boolean fields)

/-- The object of a listed language. -/
def toJson (style : KeyStyle) (l : LanguageInfo) : Json :=
  .object [
    (Field.id.key style, .string l.id),
    (Field.displayName.key style, .string l.displayName),
    (Field.supported.key style, .bool l.supported)]

end LanguageInfo

end CodeConverter.Service

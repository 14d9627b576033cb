import CodeConverter.Json.Writer
import CodeConverter.Service.History
import CodeConverter.Service.Server

/-!
# Answers to requests

The service converts code, keeps a history of what it converted, and lists its languages. An answer
depends on the request and the history.
-/

namespace CodeConverter.Service

open Text

/-- The value that a conversion is read from. A value that counts as absent is read as an empty
object. -/
def requested : Option Json → Json
  | none => .object []
  | some value => if value.isBlank then .object [] else value

/-- What the service says it can convert. -/
def features : List Text := [
  "Function and method declarations",
  "Class declarations and constructors",
  "Control structures (if/else, for, while, try/catch)",
  "Counting loops and for-each loops",
  "Print statements",
  "Variable declarations and assignments",
  "Comments and block comments",
  "Logical and comparison operators"]

/-- The answer that lists the pairs of languages and the features. -/
def featuresBody : Json :=
  .object [
    ("pairs", .array (Registry.pairs.map fun (source, target) =>
      .object [("source", .string source), ("target", .string target)])),
    ("features", .ofTexts features)]

/-- The answer that lists the languages. -/
def languagesBody : Json :=
  .array (Language.catalogue.map fun l => (LanguageInfo.ofLanguage l).toJson .camel)

/-- The answer to a request that failed its checks. -/
def rejection (errors : List FieldError) : Json :=
  .object [
    ("message", "Invalid request"),
    ("errors", .array (errors.map fun e =>
      .object [("field", .string e.field), ("message", .string e.message)]))]

/-- The answer to a request whose conversion failed. -/
def conversionFailure (message : Text) : Json :=
  .object [("message", "Failed to convert code"), ("error", .string message)]

variable (v : Validation) (settings : Except SettingsFault Settings) (time : Text)

/-- The history after a request to convert, and status and body of the answer. The answer is checked
after the record was made. -/
def convert (h : History) (value : Json) : History × Nat × Json :=
  match ConvertRequest.check v settings value with
  | .error errors => (h, 400, rejection errors)
  | .ok r =>
    match Registry.convertExplained r.sourceCode r.sourceLanguage r.targetLanguage with
    | .error fault => (h, 500, conversionFailure fault.message)
    | .ok e =>
      let explanation := e.explanation.toJson .camel
      let draft : Draft := {
        sourceCode := .string r.sourceCode
        targetCode := .string e.targetCode
        sourceLanguage := .string r.sourceLanguage
        targetLanguage := .string r.targetLanguage
        explanation := .string explanation.render }
      match h.create v time draft with
      | .error errors => (h, 500, conversionFailure (v.report errors))
      | .ok (record, h) =>
        let response := ConvertResponse.check v (.object [
          (Field.id.snake, .int record.id), (Field.targetCode.snake, .string e.targetCode),
          (Field.explanation.snake, explanation)])
        match response with
        | .error errors => (h, 500, conversionFailure (v.report errors))
        | .ok response => (h, 200, response.toJson .camel)

/-- Status and body of the answer that shows a page. -/
def view (h : History) : Page → Nat × Json
  | .conversion id =>
    match h.get? id with
    | some record => (200, record.toJson .camel)
    | none => (404, .object [("message", "Conversion not found")])
  | .conversions => (200, .array (h.list.map fun record => record.toJson .camel))
  | .languages => (200, languagesBody)
  | .features => (200, featuresBody)

/-- The history after a request, and the answer. -/
def answer (server : Server) (h : History) (r : Request) : History × Response :=
  match server.dispatch r with
  | .error response => (h, response)
  | .ok .convert =>
    match server.value? r with
    | .error response => (h, response)
    | .ok value =>
      let (h, status, body) := convert v settings time h (requested value)
      (h, server.respond r status body)
  | .ok (.page page) =>
    let (status, body) := view h page
    (h, server.respond r status body)

/-- The answers to several requests in order, from a history on. -/
def answerAll (server : Server) : History → List Request → History × List Response
  | h, [] => (h, [])
  | h, r :: rest =>
    let (h, response) := answer v settings time server h r
    let (h, responses) := answerAll server h rest
    (h, response :: responses)

end CodeConverter.Service

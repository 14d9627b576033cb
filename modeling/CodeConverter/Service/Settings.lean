import CodeConverter.Json.Reader
import CodeConverter.Service.Standard

/-!
# Settings

The settings come from environment variables. A variable that is not set leaves the default. The
allowed origins are given as JSON.
-/

namespace CodeConverter.Service

open Text

/-- The settings of the service. -/
structure Settings where
  host : Text
  portNumber : Int
  debug : Bool
  corsOrigins : List Text
  logLevel : Text
  logFormat : Text
  maxSourceLength : Int
  deriving DecidableEq

/-- Why settings are refused. -/
inductive SettingsFault where
  /-- The variable is to hold JSON and does not. -/
  | unreadable (variableName : Text)
  | invalid (errors : List FieldError)
  deriving DecidableEq

/-- The wording for a variable that is to hold JSON and does not. -/
def unreadableVariable (name : Text) : Text :=
  "error parsing value for field \"" ++ name ++ "\" from source \"EnvSettingsSource\""

namespace Settings

/-- The settings where no variable is set. -/
def default : Settings where
  host := "0.0.0.0"
  portNumber := 5000
  debug := false
  corsOrigins := ["http://localhost:8000", "http://127.0.0.1:8000"]
  logLevel := "INFO"
  logFormat := "text"
  maxSourceLength := 100000

/-- The value of a variable, or the default if it is not set. -/
def checkVariable {α : Type} (environment : List (Text × Text)) (name : Text) (unset : α)
    (check : Text → Checked α) : Checked α :=
  match environment.lookup name with
  | some value => (check value).inside name
  | none => .ok unset

/-- The variable that holds JSON. -/
def originsVariable : Text := "CORS_ORIGINS"

/-- The allowed origins: null stands for the default. -/
def checkOrigins : Option Json → Checked (List Text)
  | none => .ok default.corsOrigins
  | some .null => .ok default.corsOrigins
  | some value => (checkList checkText value).inside originsVariable

/-- The JSON value of the allowed origins, if they are set. -/
def readOrigins (environment : List (Text × Text)) : Except SettingsFault (Option Json) :=
  match environment.lookup originsVariable with
  | none => .ok none
  | some value =>
    match Json.parse? value with
    | some json => .ok (some json)
    | none => .error (.unreadable originsVariable)

/-- The settings in the order in which they are declared. -/
def check (environment : List (Text × Text)) (origins : Option Json) : Checked Settings :=
  let integer (t : Text) : Checked Int := .ofRead (integerOfText t)
  let boolean (t : Text) : Checked Bool := .ofRead (booleanOfText t)
  (((((((checkVariable environment "HOST" default.host .ok).map Settings.mk).field
    (checkVariable environment "PORT" default.portNumber integer)).field
    (checkVariable environment "DEBUG" default.debug boolean)).field
    (checkOrigins origins)).field
    (checkVariable environment "LOG_LEVEL" default.logLevel .ok)).field
    (checkVariable environment "LOG_FORMAT" default.logFormat .ok)).field
    (checkVariable environment "MAX_SOURCE_LENGTH" default.maxSourceLength integer)

/-- The settings of an environment. -/
def read (environment : List (Text × Text)) : Except SettingsFault Settings := do
  let origins ← readOrigins environment
  match check environment origins with
  | .ok settings => .ok settings
  | .error errors => .error (.invalid errors)

/-- The settings under the names of their variables. -/
def toJson (s : Settings) : Json :=
  .object [
    ("HOST", .string s.host), ("PORT", .int s.portNumber), ("DEBUG", .bool s.debug),
    (originsVariable, .ofTexts s.corsOrigins), ("LOG_LEVEL", .string s.logLevel),
    ("LOG_FORMAT", .string s.logFormat), ("MAX_SOURCE_LENGTH", .int s.maxSourceLength)]

end Settings

end CodeConverter.Service

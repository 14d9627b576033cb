import CodeConverter.Service.Settings
import CodeConverter.Text.Upper

/-!
# Setting up the log

Level and format of the log are given by the settings. An unknown level counts as `INFO`, and every
format but `json` is plain text. Two names are taken by values that are no levels.
-/

namespace CodeConverter.Log

open Text

/-- How log records are written. -/
inductive Format where
  | structured
  | plain
  deriving DecidableEq

/-- Level and format of the log. -/
structure Setup where
  level : Int
  format : Format
  deriving DecidableEq

/-- The levels by their names in upper case. -/
def levels : List (Text × Int) := [
  ("CRITICAL", 50), ("FATAL", 50), ("ERROR", 40), ("WARNING", 30), ("WARN", 30), ("INFO", 20),
  ("DEBUG", 10), ("NOTSET", 0)]

/-- Why the log cannot be set up. -/
inductive SetupFault where
  | formatAsLevel
  | stylesAsLevel
  deriving DecidableEq

/-- The wording of a failure. -/
def SetupFault.message : SetupFault → Text
  | .formatAsLevel => "Unknown level: '%(levelname)s:%(name)s:%(message)s'"
  | .stylesAsLevel =>
    "Level not an integer or a valid string: \x7b" ++
      "'%': (<class 'logging.PercentStyle'>, '%(levelname)s:%(name)s:%(message)s'), " ++
      "'\x7b': (<class 'logging.StrFormatStyle'>, " ++
      "'{levelname}:{name}:{message}'), '$': (<class 'logging.StringTemplateStyle'>, " ++
      "'${levelname}:${name}:${message}')\x7d"

/-- The names that are no levels and that no level can be set by. -/
def takenNames : List (Text × SetupFault) := [
  ("BASIC_FORMAT", .formatAsLevel), ("_STYLES", .stylesAsLevel)]

/-- How often a record is written. -/
def writers : Nat := 1

/-- The least level for records of requests. -/
def requestLevel : Int := 30

/-- The setup that the settings ask for. -/
def Setup.ofSettings (s : Service.Settings) : Except SetupFault Setup :=
  match takenNames.lookup (upper s.logLevel) with
  | some fault => .error fault
  | none => .ok {
    level := (levels.lookup (upper s.logLevel)).getD 20
    format := if s.logFormat = "json".toList then .structured else .plain }

end CodeConverter.Log

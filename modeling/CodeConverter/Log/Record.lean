import CodeConverter.Json.Writer
import CodeConverter.Log.Calendar
import CodeConverter.Log.Template

/-!
# Log lines

A log record is written as one line of text or as one JSON object on a line.
-/

namespace CodeConverter.Log

open Text

/-- How important a record is. Every number is a level. -/
inductive Level where
  | whole (n : Int)
  | real (x : Binary)
  | flag (b : Bool)
  deriving DecidableEq

namespace Level

/-- The levels that have names. -/
def names : List (Int × Text) := [
  (50, "CRITICAL"), (40, "ERROR"), (30, "WARNING"), (20, "INFO"), (10, "DEBUG"), (0, "NOTSET")]

/-- The integer that a level equals, if there is one. -/
def toInt? : Level → Option Int
  | .whole n => some n
  | .real x => x.toInt?
  | .flag b => some (if b then 1 else 0)

/-- The text of a level without a name. -/
def shown : Level → Text
  | .whole n => signedDecimal n
  | .real x => Number.plain x
  | .flag true => "True"
  | .flag false => "False"

/-- The name of a level. -/
def name (level : Level) : Text :=
  (level.toInt?.bind fun n => names.lookup n).getD ("Level " ++ level.shown)

end Level

/-- What is logged. -/
structure Record where
  logger : Text
  levelName : Text
  moduleName : Text
  line : Json
  function : Option Text
  message : Text
  arguments : List Json
  /-- The report that is printed of the error that the record is about. -/
  error : Option Text
  /-- The time in seconds since the start of 1970. -/
  created : Int

/-- Why a record cannot be written. -/
inductive Unwritable where
  | message (fault : TemplateFault)
  | time (fault : TimeFault)
  deriving DecidableEq

/-- The last part of a path. -/
def baseName (path : Text) : Text :=
  (splitOn '/' path).getLast?.getD []

/-- A file name without its last extension. Points at the front start no extension. -/
def withoutExtension (name : Text) : Text :=
  let dots := name.takeWhile (· = '.')
  let rest := name.dropWhile (· = '.')
  match lastIndex? "." rest with
  | some index => dots ++ rest.take index
  | none => name

/-- The name of the module in a file. -/
def moduleOf (file : Text) : Text :=
  withoutExtension (baseName file)

namespace Record

/-- The report of an error without the line feed at its end. -/
def errorText (report : Text) : Text :=
  if report.getLast? = some '\n' then report.dropLast else report

/-- The field for the error of a record. -/
def errorFields : Option Text → List (Text × Json)
  | some report => [("exception", .string (errorText report))]
  | none => []

/-- The fields of a record. -/
def fields (r : Record) (time : Text) (message : Codes) : List (Text × Json) :=
  ("timestamp", .string time) :: ("level", .string r.levelName) ::
    ("logger", .string r.logger) :: ("message", .ofCodes message) ::
    ("module", .string r.moduleName) :: ("function", .ofText? r.function) ::
    ("line", r.line) :: errorFields r.error

/-- The code points of the message of a record. -/
def filled (r : Record) : Except Unwritable Codes :=
  (fill r.message r.arguments).mapError .message

/-- The time of a record. -/
def date (r : Record) : Except Unwritable Text :=
  ((Moment.ofSeconds? r.created).map Moment.render).mapError .time

/-- A record as a JSON object on one line. `time` is the time of writing. -/
def structured (r : Record) (time : Text) : Except Unwritable Text := do
  return (Json.object (r.fields time (← r.filled))).render

/-- The code points of a record as a line of text. An error follows on a line of its own. -/
def plain (r : Record) : Except Unwritable Codes := do
  let message ← r.filled
  let line := codes ((← r.date) ++ " - " ++ r.logger ++ " - " ++ r.levelName ++ " - ") ++ message
  match r.error.map errorText with
  | none | some [] => return line
  | some error =>
    let lineEnd := if line.getLast? = some '\n'.toNat then [] else codes ['\n']
    return line ++ lineEnd ++ codes error

end Record

end CodeConverter.Log

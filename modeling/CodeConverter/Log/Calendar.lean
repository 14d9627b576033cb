import CodeConverter.Number.Digits

/-!
# Calendar time

Seconds counted from the start of 1970 as a date and a time of day, in the Gregorian calendar and
without leap seconds. Years are counted from March, so that a leap day is the last of its year.
-/

namespace CodeConverter.Log

open Text

/-- A date and a time of day. -/
structure Moment where
  year : Int
  month : Nat
  day : Nat
  hour : Nat
  minute : Nat
  second : Nat
  deriving DecidableEq

/-- The days from the first of March of the year zero to the start of 1970. -/
def daysBefore1970 : Int := 719468

/-- The days of four hundred years. -/
def eraDays : Int := 146097

/-- The moment some seconds after 1970. -/
def Moment.ofSeconds (seconds : Int) : Moment :=
  let days := seconds / 86400 + daysBefore1970
  let secondOfDay := (seconds % 86400).toNat
  let era := days / eraDays
  let dayOfEra := (days % eraDays).toNat
  let yearOfEra := (dayOfEra - dayOfEra / 1460 + dayOfEra / 36524 - dayOfEra / 146096) / 365
  let dayOfYear := dayOfEra - (365 * yearOfEra + yearOfEra / 4 - yearOfEra / 100)
  let monthFromMarch := (5 * dayOfYear + 2) / 153
  let month := if monthFromMarch < 10 then monthFromMarch + 3 else monthFromMarch - 9
  { year := era * 400 + yearOfEra + (if month ≤ 2 then 1 else 0)
    month := month
    day := dayOfYear - (153 * monthFromMarch + 2) / 5 + 1
    hour := secondOfDay / 3600
    minute := secondOfDay / 60 % 60
    second := secondOfDay % 60 }

/-- Why a time cannot be written as a date. -/
inductive TimeFault where
  /-- The seconds do not fit into 64 bits. -/
  | secondsTooLarge
  /-- The year, counted from 1900, does not fit into 32 bits. -/
  | yearsTooLarge
  /-- The year, counted from the start of the calendar, does not fit into 32 bits. -/
  | yearTooLarge
  deriving DecidableEq

/-- The wording of a failure. -/
def TimeFault.message : TimeFault → Text
  | .secondsTooLarge => "timestamp out of range for platform time_t"
  | .yearsTooLarge => "[Errno 75] Value too large for defined data type"
  | .yearTooLarge => "signed integer is greater than maximum"

/-- Whether a number fits into as many bits as `bound` tells: it lies from `-bound` up to below
`bound`. -/
def fits (bound n : Int) : Bool :=
  -bound ≤ n && n < bound

/-- The moment some seconds after the start of 1970, if its year is in range. -/
def Moment.ofSeconds? (seconds : Int) : Except TimeFault Moment :=
  let moment := Moment.ofSeconds seconds
  if !fits 0x8000000000000000 seconds then .error .secondsTooLarge
  else if !fits 0x80000000 (moment.year - 1900) then .error .yearsTooLarge
  else if !fits 0x80000000 moment.year then .error .yearTooLarge
  else .ok moment

/-- A number with at least two digits. -/
def twoDigits (n : Nat) : Text :=
  Number.padZeros 2 (decimal n)

/-- A moment as it is logged. -/
def Moment.render (m : Moment) : Text :=
  signedDecimal m.year ++ "-" ++ twoDigits m.month ++ "-" ++ twoDigits m.day ++ " " ++
    twoDigits m.hour ++ ":" ++ twoDigits m.minute ++ ":" ++ twoDigits m.second

/-- The calendar starts with 1970, and knows the leap day of a year divisible by 400. -/
example :
    Moment.ofSeconds 0 = ⟨1970, 1, 1, 0, 0, 0⟩ ∧
    Moment.ofSeconds (-1) = ⟨1969, 12, 31, 23, 59, 59⟩ ∧
    Moment.ofSeconds 951782400 = ⟨2000, 2, 29, 0, 0, 0⟩ := by
  decide

end CodeConverter.Log

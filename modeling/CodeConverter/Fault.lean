import CodeConverter.Text.Basic

/-!
# Causes of failure

A conversion can fail only in a few ways. Each has a constructor here, and `Fault.message` gives
its wording.
-/

namespace CodeConverter

/-- The ways in which a conversion or one of its parts can fail. -/
inductive Fault where
  /-- A token in the text names no masked literal. -/
  | unknownToken
  /-- A class header lists its bases, but the list is blank. -/
  | emptyBaseList
  | emptyStack
  /-- An entry was taken off an empty stack. -/
  | stackUnderflow
  /-- An output line that does not exist was to be changed. -/
  | noSuchLine
  /-- A block comment is open, but how it ends is not known. -/
  | missingDelimiter
  /-- A literal was to start after the end of the text. -/
  | offsetPastEnd
  | missingFormat
  | numeralTooLong (digits : Nat)
  | numberTooLong
  | noLineRules
  | unknownLanguage (tag : Text)
  deriving DecidableEq

/-- The wording of a failure. -/
def Fault.message : Fault → Text
  | .unknownToken => "list index out of range"
  | .emptyBaseList => "list index out of range"
  | .emptyStack => "list index out of range"
  | .stackUnderflow => "pop from empty list"
  | .noSuchLine => "list index out of range"
  | .missingDelimiter => "'in <string>' requires string as left operand, not NoneType"
  | .offsetPastEnd => "string index out of range"
  | .missingFormat => "not enough values to unpack (expected at least 1, got 0)"
  | .numeralTooLong digits =>
    "Exceeds the limit (4300 digits) for integer string conversion: value has " ++
      Nat.toDigits 10 digits ++
      " digits; use sys.set_int_max_str_digits() to increase the limit"
  | .numberTooLong =>
    "Exceeds the limit (4300 digits) for integer string conversion; " ++
      "use sys.set_int_max_str_digits() to increase the limit"
  | .noLineRules => ""
  | .unknownLanguage tag => "Unknown language '" ++ tag ++ "'"

/-- The innermost entry of a stack, which is its head. -/
def innermost {α : Type} : List α → Except Fault α
  | [] => .error .emptyStack
  | a :: _ => .ok a

/-- The stack without its innermost entry. -/
def popped {α : Type} : List α → Except Fault (List α)
  | [] => .error .stackUnderflow
  | _ :: rest => .ok rest

end CodeConverter

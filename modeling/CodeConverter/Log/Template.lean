import CodeConverter.Log.Literal

/-!
# Message templates

A message has directives such as `%s` and `%5.1f` that are filled in with arguments in order.
A directive has an optional key, flags, a width, a precision and a conversion letter.
-/

namespace CodeConverter.Log

open Text

/-- The two sizes of a directive. -/
inductive Size where
  | width
  | precision
  deriving DecidableEq

namespace Size

/-- The word for a size. -/
def name : Size → Text
  | .width => "width"
  | .precision => "precision"

/-- The type of a size. -/
def typeName : Size → Text
  | .width => "ssize_t"
  | .precision => "int"

/-- A bound above all values of a size. Arguments below its negation are refused as well. -/
def bound : Size → Nat
  | .width => 0x8000000000000000
  | .precision => 0x80000000

end Size

/-- Why a message cannot be filled in. -/
inductive TemplateFault where
  | tooFewArguments
  | tooManyArguments
  | incompleteDirective
  | incompleteKey
  | needsMapping
  | unknownKey (name : Text)
  | unknownDirective (letter : Char) (index : Nat)
  | needsNumber (letter : Char) (type : Text)
  | needsInteger (letter : Char) (type : Text)
  | needsReal (type : Text)
  | needsCharacter
  | characterOutOfRange
  | sizeNotInteger
  | sizeArgumentTooLarge (size : Size)
  | sizeTooLarge (size : Size)
  | numberTooLarge
  | infinityAsInteger
  | undefinedAsInteger
  deriving DecidableEq

/-- The wording of a failure. -/
def TemplateFault.message : TemplateFault → Text
  | .tooFewArguments => "not enough arguments for format string"
  | .tooManyArguments => "not all arguments converted during string formatting"
  | .incompleteDirective => "incomplete format"
  | .incompleteKey => "incomplete format key"
  | .needsMapping => "format requires a mapping"
  | .unknownKey name => quoted isPrintable name
  | .unknownDirective letter index =>
    let shown := if 31 ≤ letter.toNat && letter.toNat < 127 then letter else '?'
    "unsupported format character '" ++ [shown] ++ "' (0x" ++ Nat.toDigits 16 letter.toNat ++
      ") at index " ++ decimal index
  | .needsNumber letter type =>
      "%" ++ [letter] ++ " format: a real number is required, not " ++ type
  | .needsInteger letter type => "%" ++ [letter] ++ " format: an integer is required, not " ++ type
  | .needsReal type => "must be real number, not " ++ type
  | .needsCharacter => "%c requires int or char"
  | .characterOutOfRange => "%c arg not in range(0x110000)"
  | .sizeNotInteger => "* wants int"
  | .sizeArgumentTooLarge size => "Python int too large to convert to C " ++ size.typeName
  | .sizeTooLarge size => size.name ++ " too big"
  | .numberTooLarge => "int too large to convert to float"
  | .infinityAsInteger => "cannot convert float infinity to integer"
  | .undefinedAsInteger => "cannot convert float NaN to integer"

/-- The flags of a directive. -/
structure Flags where
  left : Bool
  plus : Bool
  blank : Bool
  alternate : Bool
  zero : Bool
  deriving DecidableEq

/-- No flag. -/
def Flags.none : Flags :=
  ⟨false, false, false, false, false⟩

/-- The flags with one more. -/
def Flags.add? (f : Flags) (c : Char) : Option Flags :=
  match c with
  | '-' => some { f with left := true }
  | '+' => some { f with plus := true }
  | ' ' => some { f with blank := true }
  | '#' => some { f with alternate := true }
  | '0' => some { f with zero := true }
  | _ => Option.none

/-- The flags at the start of a directive. -/
def readFlags (f : Flags) : Text → Flags × Text
  | [] => (f, [])
  | c :: rest =>
    match f.add? c with
    | some g => readFlags g rest
    | Option.none => (f, c :: rest)

/-- The arguments still to be used. With a mapping, arguments can be taken by name. -/
structure Arguments where
  rest : List Json
  mapping : Option (List (Text × Json))

/-- The arguments of a message. A single object that is not empty is a mapping. -/
def Arguments.ofList : List Json → Arguments
  | [.object (field :: fields)] => ⟨[.object (field :: fields)], some (field :: fields)⟩
  | arguments => ⟨arguments, none⟩

/-- The next argument. -/
def Arguments.next (a : Arguments) : Except TemplateFault (Json × Arguments) :=
  match a.rest with
  | [] => .error .tooFewArguments
  | value :: rest => .ok (value, { a with rest := rest })

/-- A size given by an argument. -/
def sizeOfArgument (size : Size) : Json → Except TemplateFault Int
  | .int n => if -size.bound ≤ n && n < size.bound then .ok n
      else .error (.sizeArgumentTooLarge size)
  | .bool b => .ok (if b then 1 else 0)
  | _ => .error .sizeNotInteger

/-- A size given by digits. -/
def sizeOfDigits (size : Size) (digits : Text) : Except TemplateFault Int :=
  let n := natOfDigits digits
  if n < size.bound then .ok n else .error (.sizeTooLarge size)

/-- A width or precision: digits, or the next argument. -/
def readSize (size : Size) (t : Text) (a : Arguments) :
    Except TemplateFault (Option Int × Text × Arguments) :=
  match t with
  | '*' :: rest => do
    let (value, a) ← a.next
    return (some (← sizeOfArgument size value), rest, a)
  | t =>
    match t.takeWhile Char.isDigit with
    | [] => .ok (none, t, a)
    | digits => do return (some (← sizeOfDigits size digits), t.dropWhile Char.isDigit, a)

/-- The name up to its closing parenthesis, which may hold pairs of parentheses, and the text after
it. -/
def readKey : Nat → Text → Option (Text × Text)
  | _, [] => none
  | depth, c :: rest =>
    if c = ')' then
      match depth with
      | 0 => some ([], rest)
      | depth + 1 => (readKey depth rest).map fun (key, rest) => (c :: key, rest)
    else
      (readKey (if c = '(' then depth + 1 else depth) rest).map fun (key, rest) => (c :: key, rest)

/-- The arguments after the key of a directive, if it has one, and the text after the key. -/
def selectArgument (t : Text) (a : Arguments) : Except TemplateFault (Text × Arguments) :=
  match t with
  | '(' :: rest =>
    match a.mapping with
    | none => .error .needsMapping
    | some fields =>
      match readKey 0 rest with
      | none => .error .incompleteKey
      | some (key, rest) =>
        match Json.field? key fields with
        | none => .error (.unknownKey key)
        | some value => .ok (rest, { a with rest := [value] })
  | t => .ok (t, a)

/-- A directive with its letter. -/
structure Directive where
  flags : Flags
  width : Nat
  precision : Option Nat
  letter : Char

/-- A text filled up to the width of a directive. A number may be filled with zeros after its
sign. -/
def Directive.pad (d : Directive) (sign : Text) (zeros : Bool) (body : Codes) : Codes :=
  let missing := d.width - (sign.length + body.length)
  if d.flags.left then codes sign ++ body ++ codes (List.replicate missing ' ')
  else if zeros && d.flags.zero then codes (sign ++ List.replicate missing '0') ++ body
  else codes (List.replicate missing ' ' ++ sign) ++ body

/-- The sign shown before a number. -/
def Directive.sign (d : Directive) (negative : Bool) : Text :=
  if negative then "-" else if d.flags.plus then "+" else if d.flags.blank then " " else ""

/-- A text as the directive asks. -/
def Directive.text (d : Directive) (body : Codes) : Codes :=
  d.pad [] false (match d.precision with
    | some size => body.take size
    | none => body)

/-- An integer as the directive asks. -/
def Directive.integer (d : Directive) (n : Int) : Codes :=
  let digits := match d.letter with
    | 'o' => Nat.toDigits 8 n.natAbs
    | 'x' => Nat.toDigits 16 n.natAbs
    | 'X' => (Nat.toDigits 16 n.natAbs).map Char.toUpper
    | _ => decimal n.natAbs
  let digits := Number.padZeros (d.precision.getD 0) digits
  let base : Text :=
    if d.flags.alternate && (d.letter = 'o' || d.letter = 'x' || d.letter = 'X')
      then ['0', d.letter] else []
  d.pad (d.sign (n < 0) ++ base) true (codes digits)

/-- Digits without zeros after the last place, and without a point if no place is left. -/
def trimPlaces (t : Text) : Text :=
  if t.contains '.' then dropEndWhile (· = '.') (Number.trimZeros t) else t

/-- Digits in scientific notation, with a point after a single digit if one is asked for. -/
def scientificDigits (alternate : Bool) (digits : Text) (exponent : Int) : Text :=
  let text := Number.scientific 'e' digits exponent
  if alternate && digits.length = 1 then text.take 1 ++ "." ++ text.drop 1 else text

/-- A number with an exponent. -/
def scientificPlaces (alternate : Bool) (num den places : Nat) : Text :=
  let (digits, exponent) := Number.significant num den (places + 1)
  scientificDigits alternate digits exponent

/-- A number with some places after the point. -/
def fixedPlaces (alternate : Bool) (num den places : Nat) : Text :=
  let text := Number.fixedPlaces num den places
  if alternate && places = 0 then text ++ "." else text

/-- A finite number with a number of significant digits, in whichever notation is shorter. -/
def generalDigits (alternate : Bool) (num den count : Nat) : Text :=
  let count := max count 1
  let (digits, exponent) := Number.significant num den count
  if -4 ≤ exponent && exponent < count then
    let text := fixedPlaces alternate num den ((count : Int) - 1 - exponent).toNat
    if alternate then text else trimPlaces text
  else
    let kept := if alternate then digits else digits.take 1 ++ Number.trimZeros (digits.drop 1)
    scientificDigits alternate kept exponent

/-- A number as the directive asks. -/
def Directive.real (d : Directive) (x : Binary) : Codes :=
  let lower := d.letter.toLower
  let places := d.precision.getD 6
  let recase (t : Text) : Codes := codes (if d.letter = lower then t else t.map Char.toUpper)
  match x with
  | .undefined => d.pad (d.sign false) true (recase "nan")
  | .infinite negative => d.pad (d.sign negative) true (recase "inf")
  | .finite negative mantissa exponent =>
    let (num, den) := Binary.fraction mantissa exponent
    let text := match lower with
      | 'e' => scientificPlaces d.flags.alternate num den places
      | 'g' => generalDigits d.flags.alternate num den places
      | _ => fixedPlaces d.flags.alternate num den places
    d.pad (d.sign negative) true (recase text)

/-- The integer for a decimal directive: numbers are cut to their integer part. -/
def Directive.wholeNumber (d : Directive) (value : Json) : Except TemplateFault Int :=
  match value with
  | .int n => .ok n
  | .bool b => .ok (if b then 1 else 0)
  | .float x =>
    if d.letter = 'o' || d.letter = 'x' || d.letter = 'X'
      then .error (.needsInteger d.letter "float")
    else match x with
      | .undefined => .error .undefinedAsInteger
      | x => match x.truncate? with
        | some n => .ok n
        | none => .error .infinityAsInteger
  | value =>
    if d.letter = 'o' || d.letter = 'x' || d.letter = 'X'
      then .error (.needsInteger d.letter (typeName value))
    else .error (.needsNumber d.letter (typeName value))

/-- A value as a number. -/
def realNumber : Json → Except TemplateFault Binary
  | .float x => .ok x
  | .int n =>
    match Binary.ofFraction (n < 0) n.natAbs 1 with
    | .finite negative mantissa exponent => .ok (.finite negative mantissa exponent)
    | _ => .error .numberTooLarge
  | .bool b => .ok (.ofFraction false (if b then 1 else 0) 1)
  | value => .error (.needsReal (typeName value))

/-- The code point for a directive, given by a character or by itself. -/
def character : Json → Except TemplateFault Nat
  | .string [c] => .ok c.toNat
  | .unpaired [code] => .ok code
  | .int n => if 0 ≤ n && n < 0x110000 then .ok n.toNat else .error .characterOutOfRange
  | .bool b => .ok (if b then 1 else 0)
  | _ => .error .needsCharacter

/-- The text of an argument under a directive, whose letter stands at an index of the message. -/
def Directive.fill (d : Directive) (index : Nat) (value : Json) : Except TemplateFault Codes :=
  match d.letter with
  | 's' => .ok (d.text (display value))
  | 'r' => .ok (d.text (codes (literal isPrintable value)))
  | 'a' => .ok (d.text (codes (literal (fun c => 0x20 ≤ c.toNat && c.toNat < 0x7f) value)))
  | 'c' => do return d.pad [] false [← character value]
  | letter =>
    if letter = 'd' || letter = 'i' || letter = 'u' || letter = 'o' || letter = 'x' ||
      letter = 'X' then do
      return d.integer (← d.wholeNumber value)
    else if letter.toLower = 'e' || letter.toLower = 'f' || letter.toLower = 'g' then do
      return d.real (← realNumber value)
    else .error (.unknownDirective letter index)

/-- The text of the directive after a percent sign, the text after it, and the arguments left.
`size` is the length of the whole message. A second percent sign stands for itself. -/
def fillDirective (size : Nat) (t : Text) (a : Arguments) :
    Except TemplateFault (Codes × Text × Arguments) := do
  if let '%' :: rest := t then return (codes ['%'], rest, a)
  let (t, a) ← selectArgument t a
  let (flags, t) := readFlags .none t
  let (width, t, a) ← readSize .width t a
  let flags := { flags with left := flags.left || width.getD 0 < 0 }
  let (precision, t, a) ← match t with
    | '.' :: t => do
      let (precision, t, a) ← readSize .precision t a
      pure (some (precision.getD 0).toNat, t, a)
    | t => pure (none, t, a)
  let t := match t with
    | c :: rest => if c = 'h' || c = 'l' || c = 'L' then rest else c :: rest
    | [] => []
  match t with
  | [] => .error .incompleteDirective
  | letter :: rest =>
    let (value, a) ← a.next
    let d : Directive := ⟨flags, (width.getD 0).natAbs, precision, letter⟩
    return (← d.fill (size - (rest.length + 1)) value, rest, a)

/-- The rest of a message with its directives filled in, and the arguments left. Every step passes
over a character, so the length of the message bounds the steps `n`. -/
def fillFrom (size : Nat) : Nat → Text → Arguments → Except TemplateFault (Codes × Arguments)
  | 0, t, a => .ok (codes t, a)
  | _, [], a => .ok ([], a)
  | n + 1, c :: rest, a => do
    if c = '%' then
      let (shown, rest, a) ← fillDirective size rest a
      let (more, a) ← fillFrom size n rest a
      return (shown ++ more, a)
    else
      let (more, a) ← fillFrom size n rest a
      return (c.toNat :: more, a)

/-- The code points of a message with its directives filled in. Without arguments it stays as it is,
and all arguments must be used unless they are named. -/
def fill (message : Text) (arguments : List Json) : Except TemplateFault Codes :=
  if arguments.isEmpty then .ok (codes message)
  else do
    let (text, a) ← fillFrom message.length (message.length + 1) message (.ofList arguments)
    if a.mapping.isNone && !a.rest.isEmpty then .error .tooManyArguments
    return text

end CodeConverter.Log

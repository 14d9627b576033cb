import CodeConverter.Number.Binary
import CodeConverter.Text.Numeral

/-!
# Numbers in decimal notation

A finite number is written with a fixed number of places, with a fixed number of significant
digits, or with the fewest digits that read back as the same number.
-/

namespace CodeConverter.Number

open Text Binary

/-- Digits filled up with zeros. -/
def padZeros (size : Nat) (t : Text) : Text :=
  List.replicate (size - t.length) '0' ++ t

/-- The fraction `num / den` with a fixed number of places after the point. -/
def fixedPlaces (num den places : Nat) : Text :=
  let digits := padZeros (places + 1) (decimal (roundDiv (num * tenTo places) den))
  let whole := digits.take (digits.length - places)
  if places = 0 then whole else whole ++ "." ++ digits.drop (digits.length - places)

/-- The greatest power of ten that is at most `num / den`, which is not zero. -/
def decimalExponent (num den : Nat) : Int :=
  if den ≤ num then ((decimal (num / den)).length : Int) - 1
  else
    let places := (decimal (den / num)).length
    if den ≤ num * tenTo (places - 1) then 1 - (places : Int) else -(places : Int)

/-- The fraction `num / den` in units of ten to the power `unit`, as a fraction. -/
def perUnit (num den : Nat) (unit : Int) : Nat × Nat :=
  if 0 ≤ unit then (num, den * tenTo unit.toNat) else (num * tenTo (-unit).toNat, den)

/-- The fraction `num / den` in units of ten to the power `unit`, rounded to an integer. -/
def inUnits (num den : Nat) (unit : Int) : Nat :=
  let (num, den) := perUnit num den unit
  roundDiv num den

/-- The two integers next to the fraction `num / den` in units of ten to the power `unit`, the
nearer one first. -/
def neighbours (num den : Nat) (unit : Int) : List Nat :=
  let (num, den) := perUnit num den unit
  let nearer := roundDiv num den
  [nearer, 2 * (num / den) + 1 - nearer]

/-- The first `count` significant digits of a fraction and the exponent of the first one. -/
def significant (num den count : Nat) : Text × Int :=
  if num = 0 then (List.replicate count '0', 0)
  else
    let exponent := decimalExponent num den
    let digits := decimal (inUnits num den (exponent - count + 1))
    if digits.length ≤ count then (digits, exponent) else (digits.take count, exponent + 1)

/-- The significant digits with the fewest places that read back as the same number, tried from
`count` on, at most `n` times. Of two numbers with as many digits the nearer one is taken. Below a
power of two the numbers of the format are closer together than above it, so it may be that only the
farther one reads back. -/
def shortestFrom (mantissa : Nat) (exponent : Int) : Nat → Nat → Text × Int
  | 0, count =>
    let (num, den) := fraction mantissa exponent
    significant num den count
  | n + 1, count =>
    let (num, den) := fraction mantissa exponent
    let unit := decimalExponent num den - count + 1
    let readsBack (candidate : Nat) : Bool :=
      ofDecimal false candidate unit = .finite false mantissa exponent
    match (neighbours num den unit).find? readsBack with
    | some candidate =>
      let digits := decimal candidate
      (digits, unit + digits.length - 1)
    | none => shortestFrom mantissa exponent n (count + 1)

/-- The fewest significant digits that read back as the same number, and the exponent of the first
one. Seventeen digits always read back. -/
def shortest (mantissa : Nat) (exponent : Int) : Text × Int :=
  shortestFrom mantissa exponent 16 1

/-- Digits without zeros at the end. -/
def trimZeros (t : Text) : Text :=
  dropEndWhile (· = '0') t

/-- Digits with a point after the first one and an exponent of at least two places. -/
def scientific (mark : Char) (digits : Text) (exponent : Int) : Text :=
  let mantissa := match digits with
    | first :: second :: rest => first :: '.' :: second :: rest
    | short => short
  let sign := if exponent < 0 then '-' else '+'
  mantissa ++ mark :: sign :: padZeros 2 (decimal exponent.natAbs)

/-- Digits with a point where the exponent of the first digit puts it, and no zeros after the last
digit. -/
def positional (digits : Text) (exponent : Int) : Text :=
  if exponent < 0 then "0." ++ List.replicate ((-exponent).toNat - 1) '0' ++ digits
  else
    let whole := exponent.toNat + 1
    if digits.length ≤ whole then digits ++ List.replicate (whole - digits.length) '0'
    else digits.take whole ++ "." ++ digits.drop whole

/-- The sign of a number. -/
def sign (negative : Bool) : Text :=
  if negative then "-" else ""

/-- A number with the fewest digits that read back. It is written positionally from `1e-4` up to
`1e16`, and an integer keeps one place. -/
def plain : Binary → Text
  | .undefined => "nan"
  | .infinite negative => sign negative ++ "inf"
  | .finite negative 0 _ => sign negative ++ "0.0"
  | .finite negative mantissa exponent =>
    let (digits, first) := shortest mantissa exponent
    let digits := match trimZeros digits with
      | [] => "0"
      | trimmed => trimmed
    if -4 ≤ first && first < 16 then
      let text := positional digits first
      sign negative ++ (if text.contains '.' then text else text ++ ".0")
    else sign negative ++ scientific 'e' digits first

end CodeConverter.Number

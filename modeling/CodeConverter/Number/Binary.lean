import CodeConverter.Text.Basic

/-!
# Binary floating point numbers

A number of the format with 53 significant bits and exponents from -1074 to 971, held exactly as a
mantissa times a power of two. A decimal is read by rounding it to the nearest such number, a tie
going to the even mantissa.
-/

namespace CodeConverter

/-- A floating point number. A finite one is its mantissa times two to its exponent. -/
inductive Binary where
  | finite (negative : Bool) (mantissa : Nat) (exponent : Int)
  | infinite (negative : Bool)
  | undefined
  deriving DecidableEq

namespace Binary

/-- A power of ten. -/
def tenTo (n : Nat) : Nat :=
  Nat.pow 10 n

/-- The quotient rounded to the nearest integer, a tie going to the even one. -/
def roundDiv (num den : Nat) : Nat :=
  let q := num / den
  let r := num % den
  if 2 * r < den then q
  else if den < 2 * r then q + 1
  else if q % 2 = 0 then q else q + 1

/-- The fraction `num / den` times two to the power `-shift`, as a fraction. -/
def scaled (num den : Nat) (shift : Int) : Nat × Nat :=
  if 0 ≤ shift then (num, den <<< shift.toNat) else (num <<< (-shift).toNat, den)

/-- No mantissa is as large. -/
def mantissaBound : Nat := 0x20000000000000

/-- The least exponent. -/
def leastExponent : Int := -1074

/-- The exponent with which the integer part of the scaled fraction has 53 bits, or the least
one. -/
def exponentOf (num den : Nat) : Int :=
  let guess : Int := (num.log2 : Int) - (den.log2 : Int) - 53
  let (n, d) := scaled num den guess
  let exponent := if n / d < mantissaBound then guess else guess + 1
  max exponent leastExponent

/-- The fraction `num / den` rounded to the format. -/
def ofFraction (negative : Bool) (num den : Nat) : Binary :=
  if num = 0 then .finite negative 0 leastExponent
  else
    let exponent := exponentOf num den
    let (n, d) := scaled num den exponent
    let mantissa := roundDiv n d
    let (mantissa, exponent) :=
      if mantissa < mantissaBound then (mantissa, exponent) else (mantissa / 2, exponent + 1)
    if 971 < exponent then .infinite negative else .finite negative mantissa exponent

/-- The number `digits` times ten to the power `exponent`, rounded to the format. Exponents far
outside the range of the format are not computed with. -/
def ofDecimal (negative : Bool) (digits : Nat) (exponent : Int) : Binary :=
  let size : Int := (Nat.toDigits 10 digits).length
  if digits = 0 || size + exponent < -400 then .finite negative 0 leastExponent
  else if 400 < size + exponent then .infinite negative
  else if 0 ≤ exponent then ofFraction negative (digits * tenTo exponent.toNat) 1
  else ofFraction negative digits (tenTo (-exponent).toNat)

/-- The size of a finite number as a fraction. -/
def fraction (mantissa : Nat) (exponent : Int) : Nat × Nat :=
  scaled mantissa 1 (-exponent)

/-- Whether a number is zero of either sign. -/
def isZero : Binary → Bool
  | .finite _ mantissa _ => mantissa = 0
  | _ => false

/-- The value of a finite number that is an integer. -/
def toInt? : Binary → Option Int
  | .finite negative mantissa exponent =>
    let (num, den) := fraction mantissa exponent
    if num % den = 0 then
      let n : Int := num / den
      some (if negative then -n else n)
    else none
  | _ => none

/-- The integer part of a finite number. -/
def truncate? : Binary → Option Int
  | .finite negative mantissa exponent =>
    let (num, den) := fraction mantissa exponent
    let n : Int := num / den
    some (if negative then -n else n)
  | _ => none

end Binary

end CodeConverter

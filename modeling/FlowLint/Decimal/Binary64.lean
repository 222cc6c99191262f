/-! # Binary floating-point numbers of 64 bits

A finite number is `± mantissa · 2 ^ exponent` with a mantissa below `2 ^ 53`. A decimal is read
as the nearest such number, a tie going to the even mantissa.
-/
namespace FlowLint

inductive Binary64 where
  | nan
  | infinite (negative : Bool)
  | finite (negative : Bool) (mantissa : Nat) (exponent : Int)
  deriving DecidableEq, Inhabited

namespace Binary64

/-- The exponent of the subnormal numbers and of the smallest normal ones. -/
def minExponent : Int := -1074

def maxExponent : Int := 971

/-- The least mantissa of a normal number: `2 ^ 52`. -/
def leastNormal : Nat := 4503599627370496

/-- The nearest integer, a tie going to the even neighbour. -/
def roundEven (x : Rat) : Int :=
  let low := x.floor
  let rest := x - low
  if rest < 1 / 2 then low
  else if 1 / 2 < rest then low + 1
  else if low % 2 = 0 then low else low + 1

/-- The exponent at which a positive number has a mantissa from `2 ^ 52` to `2 ^ 53`, or the
least exponent for a smaller number. -/
def exponentOf (x : Rat) : Int :=
  let guess : Int := (x.num.toNat.log2 : Int) - x.den.log2 - 52
  max minExponent (if x < 2 ^ (guess + 52) then guess - 1 else guess)

def nearest (negative : Bool) (x : Rat) : Binary64 :=
  let e := exponentOf x
  let m := (roundEven (x / 2 ^ e)).toNat
  let (m, e) := if m = 2 * leastNormal then (leastNormal, e + 1) else (m, e)
  if maxExponent < e then infinite negative else finite negative m e

/-- The number nearest to `± digits · 10 ^ exponent`.

Magnitudes far outside the range of finite numbers are decided without computing the power. -/
def ofDecimal (negative : Bool) (digits : Nat) (exponent : Int) : Binary64 :=
  let magnitude := exponent + (Nat.toDigits 10 digits).length
  if digits = 0 || magnitude < -400 then finite negative 0 minExponent
  else if 400 < magnitude then infinite negative
  else nearest negative (digits * 10 ^ exponent)

end Binary64

end FlowLint

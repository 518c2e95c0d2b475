/-!
# Binary floating point

The numbers of the 64-bit binary format, as exact data: a finite one is a natural mantissa times a
power of two. A decimal literal becomes the nearest of them, a half going to the even mantissa;
past the largest the result is infinite.
-/

namespace SchemaGen.Number

/-- A number of the 64-bit binary format. A finite one is `mantissa * 2 ^ exponent`, with the
mantissa below `2 ^ 53` and the exponent at least `-1074`. -/
inductive Binary64 where
  | nan
  | infinite (negative : Bool)
  | finite (negative : Bool) (mantissa : Nat) (exponent : Int)
  deriving DecidableEq, Repr

/-- The quotient rounded to the nearest natural number, a half going to the even one. -/
def roundHalfEven (num den : Nat) : Nat :=
  let below := num / den
  let rest := 2 * (num % den)
  if rest < den then below
  else if den < rest then below + 1
  else below + below % 2

/-- The fraction `n * base ^ exponent`. -/
def scaled (base n : Nat) (exponent : Int) : Nat × Nat :=
  if 0 ≤ exponent then (n * Nat.pow base exponent.toNat, 1)
  else (n, Nat.pow base (-exponent).toNat)

/-- The fraction `num / den` divided by `base ^ exponent`, again as a fraction. -/
def scaleDown (base num den : Nat) (exponent : Int) : Nat × Nat :=
  let (p, q) := scaled base 1 exponent
  (num * q, den * p)

/-- The least mantissa of a number that has all its digits. -/
def leastFullMantissa : Nat := Nat.pow 2 52

namespace Binary64

/-- Zero of either sign. -/
def zero (negative : Bool) : Binary64 := .finite negative 0 (-1074)

/-- Whether a number is zero, of either sign. -/
def isZero : Binary64 → Bool
  | .finite _ 0 _ => true
  | _ => false

/-- The number nearest to a positive fraction. -/
def nearest (negative : Bool) (num den : Nat) : Binary64 :=
  let guess : Int := max (-1074) (num.log2 - den.log2 - 52)
  let (n, d) := scaleDown 2 num den guess
  let exponent := if -1074 < guess ∧ n / d < leastFullMantissa then guess - 1 else guess
  let (n, d) := scaleDown 2 num den exponent
  let mantissa := roundHalfEven n d
  let (mantissa, exponent) :=
    if mantissa = 2 * leastFullMantissa then (leastFullMantissa, exponent + 1)
    else (mantissa, exponent)
  if 971 < exponent then .infinite negative else .finite negative mantissa exponent

/-- The number nearest to `digits * 10 ^ exponent`. Magnitudes far outside the format's range are
settled by their size alone. -/
def ofDecimal (negative : Bool) (digits : Nat) (exponent : Int) : Binary64 :=
  let size : Int := (Nat.toDigits 10 digits).length + exponent
  if digits = 0 ∨ size < -400 then zero negative
  else if 400 < size then .infinite negative
  else
    let (num, den) := scaled 10 digits exponent
    nearest negative num den

/-- Whether a number is exactly the given integer. -/
def isInt (x : Binary64) (n : Int) : Bool :=
  match x with
  | .finite negative mantissa exponent =>
    let (num, den) := scaled 2 mantissa exponent
    decide (num = n.natAbs * den) && (num == 0 || negative == decide (n < 0))
  | _ => false

/-- Whether two numbers are equal in value: zeros of both signs are, and nothing equals a number
that is undefined. -/
def sameValue : Binary64 → Binary64 → Bool
  | .nan, _ => false
  | x, y => x == y || (x.isZero && y.isZero)

end Binary64

end SchemaGen.Number

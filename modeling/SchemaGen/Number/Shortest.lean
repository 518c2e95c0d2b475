import SchemaGen.Number.Binary64
import SchemaGen.Number.Decimal

/-!
# Shortest decimal text

A binary number is written with the fewest digits that read back as the same number; of two such
decimals the nearer one, and the even one at an exact tie. The layout is positional from
`0.0001` up to sixteen places before the point, and with a signed exponent of at least two digits
elsewhere.
-/

namespace SchemaGen.Number

/-- A decimal number: `digits * 10 ^ exponent`. -/
structure Decimal where
  digits : Nat
  exponent : Int
  deriving DecidableEq, Repr

/-- How many tenfold steps, at most `fuel`, lift a fraction to one or more. -/
def stepsToOne : Nat → Nat → Nat → Nat
  | 0, _, _ => 0
  | fuel + 1, num, den => if den ≤ num then 0 else stepsToOne fuel (num * 10) den + 1

/-- The number of digits before the point of a positive fraction; zero or negative when zeros
follow the point. -/
def pointPlace (num den : Nat) : Int :=
  if den ≤ num then (decimalDigits (num / den)).length
  else 1 - stepsToOne 400 num den

/-- The two decimals with the given exponent that enclose a fraction, the nearer one first. -/
def neighbours (num den : Nat) (exponent : Int) : List Decimal :=
  let (n, d) := scaleDown 10 num den exponent
  let below := n / d
  if roundHalfEven n d = below then [⟨below, exponent⟩, ⟨below + 1, exponent⟩]
  else [⟨below + 1, exponent⟩, ⟨below, exponent⟩]

/-- The first decimal that reads back as `mantissa * 2 ^ exponent`, trying one digit, two digits
and so on up to seventeen. -/
def shortest (mantissa : Nat) (exponent : Int) : Decimal :=
  let (num, den) := scaled 2 mantissa exponent
  let place := pointPlace num den
  let candidates := (List.range 17).flatMap fun (n : Nat) => neighbours num den (place - (n + 1))
  let readsBack (x : Decimal) : Bool :=
    Binary64.ofDecimal false x.digits x.exponent == .finite false mantissa exponent
  (candidates.find? readsBack).getD ⟨0, 0⟩

/-- The digits less the zeros at the end. -/
def dropFinalZeros (digits : List Char) : List Char :=
  (digits.reverse.dropWhile (· == '0')).reverse

/-- Lays out significant digits with the point after `place` of them. -/
def layOut (digits : List Char) (place : Int) : List Char :=
  if place ≤ -4 ∨ 16 < place then
    let power := place - 1
    let shown := decimalDigits power.natAbs
    digits.take 1 ++ (if digits.length ≤ 1 then [] else '.' :: digits.drop 1) ++
      ['e', if power < 0 then '-' else '+'] ++ (if shown.length < 2 then '0' :: shown else shown)
  else if place ≤ 0 then
    '0' :: '.' :: List.replicate (-place).toNat '0' ++ digits
  else if digits.length ≤ place.toNat then
    digits ++ List.replicate (place.toNat - digits.length) '0' ++ ['.', '0']
  else digits.take place.toNat ++ '.' :: digits.drop place.toNat

/-- The text of a binary number. -/
def Binary64.text : Binary64 → String
  | .nan => "nan"
  | .infinite negative => if negative then "-inf" else "inf"
  | .finite negative mantissa exponent =>
    let body :=
      if mantissa = 0 then ['0', '.', '0']
      else
        let x := shortest mantissa exponent
        let digits := decimalDigits x.digits
        layOut (dropFinalZeros digits) (digits.length + x.exponent)
    String.ofList ((if negative then ['-'] else []) ++ body)

end SchemaGen.Number

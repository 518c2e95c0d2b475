/-!
# Decimal digits

Integers are written with the digits of base ten, without zeros in front, after a minus sign where
they are negative.
-/

namespace SchemaGen.Number

/-- The decimal digits of a natural number. -/
def decimalDigits (n : Nat) : List Char := Nat.toDigits 10 n

/-- An integer in decimal. -/
def decimal (n : Int) : String :=
  String.ofList ((if n < 0 then ['-'] else []) ++ decimalDigits n.natAbs)

end SchemaGen.Number

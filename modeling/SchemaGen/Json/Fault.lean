import SchemaGen.Number.Decimal

/-!
# Faults in a JSON text

A fault names the rule that was broken and the place: the line and the column, both from one, and
the number of characters before it. Characters are code points, and lines end at line feeds.
-/

namespace SchemaGen.Json

/-- The rule of the JSON grammar that a text breaks. -/
inductive Problem where
  | expectingValue
  | expectingName
  | expectingColon
  | expectingComma
  | unterminatedString
  | controlCharacter
  | unknownEscape
  | incompleteCode
  | extraData
  | byteOrderMark
  deriving DecidableEq, Repr

/-- The words for a problem. -/
def Problem.text : Problem → String
  | .expectingValue => "Expecting value"
  | .expectingName => "Expecting property name enclosed in double quotes"
  | .expectingColon => "Expecting ':' delimiter"
  | .expectingComma => "Expecting ',' delimiter"
  | .unterminatedString => "Unterminated string starting at"
  | .controlCharacter => "Invalid control character at"
  | .unknownEscape => "Invalid \\escape"
  | .incompleteCode => "Invalid \\uXXXX escape"
  | .extraData => "Extra data"
  | .byteOrderMark => "Unexpected UTF-8 BOM (decode using utf-8-sig)"

/-- Why a text is not read as a value: it breaks the grammar at a place, or holds an integer of
more digits than are read. -/
inductive Fault where
  | malformed (problem : Problem) (line column offset : Nat)
  | tooManyDigits (count : Nat)
  deriving DecidableEq, Repr

/-- The longest integer that is read, in digits. -/
def digitLimit : Nat := 4300

/-- The words for a fault. -/
def Fault.message : Fault → String
  | .malformed problem line column offset =>
    problem.text ++ ": line " ++ Number.decimal line ++ " column " ++ Number.decimal column ++
      " (char " ++ Number.decimal offset ++ ")"
  | .tooManyDigits count =>
    "Exceeds the limit (" ++ Number.decimal digitLimit ++
      " digits) for integer string conversion: value has " ++ Number.decimal count ++
      " digits; use sys.set_int_max_str_digits() to increase the limit"

/-- The fault at the place that follows `offset` characters of a text. -/
def Fault.at (text : List Char) (problem : Problem) (offset : Nat) : Fault :=
  let before := text.take offset
  .malformed problem (before.count '\n' + 1)
    ((before.reverse.takeWhile (· != '\n')).length + 1) offset

end SchemaGen.Json

import SchemaGen.Text.Hex
import SchemaGen.Text.Name

/-!
# Written literals

String literals as JSON and TypeScript share them, in ASCII alone: the quote and the backslash are
escaped, five controls have a name, and every other character outside the printed ASCII range is
written as one or two UTF-16 units. A property name is written bare where it is an identifier and
as a literal elsewhere.
-/

namespace SchemaGen.Json

/-- The UTF-16 units of a character: one in the basic plane, a surrogate pair beyond it. -/
def units16 (c : Char) : List Nat :=
  if c.toNat < 0x10000 then [c.toNat]
  else [0xd800 + (c.toNat - 0x10000) / 0x400, 0xdc00 + (c.toNat - 0x10000) % 0x400]

/-- One UTF-16 unit by its code. -/
def unitEscape (unit : Nat) : List Char := '\\' :: 'u' :: Text.Hex.digits 4 unit

/-- One character of a literal. -/
def literalChar (c : Char) : List Char :=
  if c = '"' ∨ c = '\\' then ['\\', c]
  else if c = '\n' then ['\\', 'n']
  else if c = '\r' then ['\\', 'r']
  else if c = '\t' then ['\\', 't']
  else if c = '\x08' then ['\\', 'b']
  else if c = '\x0c' then ['\\', 'f']
  else if ' ' ≤ c ∧ c ≤ '~' then [c]
  else (units16 c).flatMap unitEscape

/-- The characters of a string literal. -/
def literalChars (s : List Char) : List Char := '"' :: s.flatMap literalChar ++ ['"']

/-- A text as a string literal. -/
def stringLiteral (s : String) : String := String.ofList (literalChars s.toList)

/-- Texts as a list of string literals. -/
def stringListLiteral (items : List String) : String :=
  "[" ++ ", ".intercalate (items.map stringLiteral) ++ "]"

/-- A name in the place of a property: bare where it is an identifier, a literal elsewhere. -/
def propertyName (name : String) : String :=
  if Text.isIdentifier name then name else stringLiteral name

end SchemaGen.Json

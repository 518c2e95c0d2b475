import SchemaGen.Text.Hex
import SchemaGen.Text.Unprintable

/-!
# Quoted text

The form in which messages show a text: between single quotes, or between double quotes when the
text holds a single quote and no double one. The quote in use and the backslash are escaped, line
feed, carriage return and tab are named, and every other character without a printed form is
written by its code at the shortest of three widths.
-/

namespace SchemaGen.Text

/-- The single quote. -/
def apostrophe : Char := Char.ofNat 0x27

/-- The double quote. -/
def quotationMark : Char := Char.ofNat 0x22

/-- A character by its code, with two, four or eight digits. -/
def codeEscape (c : Char) : List Char :=
  if c.toNat < 0x100 then '\\' :: 'x' :: Hex.digits 2 c.toNat
  else if c.toNat < 0x10000 then '\\' :: 'u' :: Hex.digits 4 c.toNat
  else '\\' :: 'U' :: Hex.digits 8 c.toNat

/-- One character inside a text quoted by `quote`. -/
def quotedChar (quote c : Char) : List Char :=
  if c = quote ∨ c = '\\' then ['\\', c]
  else if c = '\n' then ['\\', 'n']
  else if c = '\r' then ['\\', 'r']
  else if c = '\t' then ['\\', 't']
  else if isUnprintable c then codeEscape c
  else [c]

/-- The quote that a text is put between. -/
def quoteFor (s : List Char) : Char :=
  if apostrophe ∈ s ∧ quotationMark ∉ s then quotationMark else apostrophe

/-- A text as messages show it. -/
def quoted (s : String) : String :=
  let quote := quoteFor s.toList
  String.ofList (quote :: s.toList.flatMap (quotedChar quote) ++ [quote])

end SchemaGen.Text

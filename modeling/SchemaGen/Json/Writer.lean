import SchemaGen.Json.Literal
import SchemaGen.Json.Value
import SchemaGen.Number.Shortest

/-!
# Writing JSON

A value as a JSON text on one line and in ASCII alone, with one space after every comma and every
colon. The numbers beyond the standard are written by the names under which they are read.
-/

namespace SchemaGen.Json

open SchemaGen.Number (Binary64)

/-- A binary number in a JSON text. -/
def realText : Binary64 → String
  | .nan => "NaN"
  | .infinite negative => if negative then "-Infinity" else "Infinity"
  | x => x.text

mutual

/-- A value as a JSON text. -/
def Value.write : Value → String
  | .null => "null"
  | .bool b => if b then "true" else "false"
  | .int n => Number.decimal n
  | .real x => realText x
  | .text s => stringLiteral s
  | .list items => "[" ++ ", ".intercalate (writeItems items) ++ "]"
  | .object entries => "\x7b" ++ ", ".intercalate (writeEntries entries) ++ "\x7d"

/-- The items of a list as JSON texts. -/
def writeItems : List Value → List String
  | [] => []
  | v :: rest => v.write :: writeItems rest

/-- The entries of an object as JSON texts. -/
def writeEntries : List (String × Value) → List String
  | [] => []
  | (k, v) :: rest => (stringLiteral k ++ ": " ++ v.write) :: writeEntries rest

end

theorem writeItems_eq_map (items : List Value) : writeItems items = items.map Value.write := by
  induction items with
  | nil => rfl
  | cons v rest ih => rw [writeItems, ih, List.map_cons]

/-- A list of texts is written like the list of values that they are. -/
theorem stringListLiteral_eq_write (items : List String) :
    stringListLiteral items = (Value.list (items.map .text)).write := by
  rw [Value.write, writeItems_eq_map, List.map_map]
  congr 3

end SchemaGen.Json

import SchemaGen.Json.Value
import SchemaGen.Number.Shortest
import SchemaGen.Text.Quoted

/-!
# Values inside text

A value that lands in generated text or in a message. A text stands for itself there; every other
value has one spelling, in which the texts inside lists and objects are quoted.
-/

namespace SchemaGen.Json

mutual

/-- The spelling of a value in which texts are quoted. -/
def Value.quoted : Value → String
  | .null => "None"
  | .bool b => if b then "True" else "False"
  | .int n => Number.decimal n
  | .real x => x.text
  | .text s => Text.quoted s
  | .list items => "[" ++ ", ".intercalate (quotedItems items) ++ "]"
  | .object entries => "\x7b" ++ ", ".intercalate (quotedEntries entries) ++ "\x7d"

/-- The spellings of the items of a list. -/
def quotedItems : List Value → List String
  | [] => []
  | v :: rest => v.quoted :: quotedItems rest

/-- The spellings of the entries of an object. -/
def quotedEntries : List (String × Value) → List String
  | [] => []
  | (k, v) :: rest => (Text.quoted k ++ ": " ++ v.quoted) :: quotedEntries rest

end

/-- A value as it is placed into text. -/
def Value.display : Value → String
  | .text s => s
  | v => v.quoted

@[simp] theorem Value.display_text (s : String) : (Value.text s).display = s := rfl

end SchemaGen.Json

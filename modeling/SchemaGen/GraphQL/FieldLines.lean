import SchemaGen.Fault

/-!
# Field lines of the types written so far

A GraphQL type repeats the fields of its ancestors, so the lines of every record are kept when it
is written. They are kept once and for all: keeping them twice is a fault, and so is asking for
lines that were not kept.
-/

namespace SchemaGen.GraphQL

/-- The field lines of each type, in the order in which the types were written. -/
abbrev FieldLines := Table (List String)

namespace FieldLines

/-- Keeps the lines of a type. -/
def keep (kept : FieldLines) (typeName : String) (lines : List String) : Except Fault FieldLines :=
  if Table.contains kept typeName then .error (.linesKept typeName)
  else .ok (kept ++ [(typeName, lines)])

/-- The lines of a type. -/
def linesOf (kept : FieldLines) (typeName : String) : Except Fault (List String) :=
  match Table.get? kept typeName with
  | some lines => .ok lines
  | none => .error (.linesMissing typeName)

/-- Keeping changes the lines of one type, and that type had none before. -/
theorem get?_of_keep {kept after : FieldLines} {typeName : String} {lines : List String}
    (h : kept.keep typeName lines = .ok after) (other : String) :
    Table.get? after other = if typeName = other then some lines else Table.get? kept other := by
  unfold keep at h
  split at h
  · cases h
  · rename_i hn
    rw [Table.contains_iff] at hn
    cases h
    rw [← Table.set_of_not_mem hn, Table.get?_set]

end FieldLines

end SchemaGen.GraphQL

import SchemaGen.Fault
import SchemaGen.Model.Definition

/-!
# Counterparts of the primitives

Each target has a table with its counterpart of every primitive type.
-/

namespace SchemaGen

/-- The counterpart of a primitive in a target's table. -/
def primitiveIn (table : Table String) (name : String) : Except Fault String :=
  match Table.get? table name with
  | some text => .ok text
  | none => .error (.unmappedPrimitive name)

/-- The fault of a definition that is neither a record nor an enumeration. -/
def Fault.bareDefinition (name : String) : Fault :=
  .schema (.invalidDefinition name .neitherFieldsNorValues)

end SchemaGen

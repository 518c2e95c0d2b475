import SchemaGen.Table

/-!
# Definitions

A type model gives every type name a definition: a record with ordered fields and at most one
parent, or an enumeration of texts. The type of a field is built from primitives and references by
arrays and by a mark for required fields. Inheritance is not resolved here: a record only names its
parent.

Two cases have no written form in a model and exist for definitions that are put together by hand:
a field type without a shape, and a definition that is a name and nothing else.
-/

namespace SchemaGen.Model

/-- The type of a field. -/
inductive FieldType where
  /-- No shape at all. -/
  | shapeless
  /-- A type that needs no further definition. -/
  | primitive (name : String)
  /-- A type of the model. -/
  | reference (name : String)
  /-- An array of items. -/
  | array (item : FieldType)
  /-- A field that must be present. -/
  | required (inner : FieldType)
  deriving DecidableEq, Repr, Inhabited

namespace FieldType

/-- The names of the primitive types. -/
def primitiveNames : List String := ["string", "number", "boolean", "id", "any"]

/-- Whether the outermost mark is that of a required field. -/
def isRequired : FieldType → Bool
  | .required _ => true
  | _ => false

/-- Whether the outermost shape is an array. -/
def isArray : FieldType → Bool
  | .array _ => true
  | _ => false

/-- The type below the outermost marks of a required field. -/
def unwrap : FieldType → FieldType
  | .required inner => inner.unwrap
  | type => type

/-- The types of the model that a field type mentions. -/
def references : FieldType → List String
  | .reference name => [name]
  | .array item => item.references
  | .required inner => inner.references
  | _ => []

end FieldType

/-- A named field of a record. -/
structure Field where
  name : String
  type : FieldType
  deriving DecidableEq, Repr, Inhabited

/-- A record: ordered fields, the name of its parent, and whether it is the persisted base of its
descendants, which gives it an identity. -/
structure Record where
  name : String
  fields : List Field := []
  parent : Option String := none
  dbBase : Bool := false
  deriving DecidableEq, Repr, Inhabited

/-- Whether a record only gives its parent another name: it has a parent and no fields. -/
def Record.isAlias (r : Record) : Bool := r.fields.isEmpty && r.parent.isSome

/-- The name of a record's parent where it is not empty. -/
def Record.namedParent? (r : Record) : Option String := r.parent.filter (· ≠ "")

/-- An enumeration of texts. -/
structure Enumeration where
  name : String
  values : List String
  deriving DecidableEq, Repr, Inhabited

/-- What a type name stands for. -/
inductive Definition where
  | record (r : Record)
  | enumeration (e : Enumeration)
  /-- A name without a shape. -/
  | bare (name : String)
  deriving DecidableEq, Repr, Inhabited

namespace Definition

/-- The name that a definition gives itself. -/
def name : Definition → String
  | .record r => r.name
  | .enumeration e => e.name
  | .bare name => name

/-- The name of the parent, which only a record can have. -/
def parent? : Definition → Option String
  | .record r => r.parent
  | _ => none

/-- Whether a definition is an enumeration. -/
def isEnumeration : Definition → Bool
  | .enumeration _ => true
  | _ => false

end Definition

end SchemaGen.Model

namespace SchemaGen

open SchemaGen.Model

/-- Definitions under distinct type names, in model order. -/
structure Model where
  table : Table Definition
  distinct : (Table.keys table).Nodup

namespace Model

/-- No definitions. -/
def empty : Model := ⟨[], List.nodup_nil⟩

/-- Sets the definition of a type name, at its place when it has one already. -/
def set (m : Model) (name : String) (d : Definition) : Model :=
  ⟨Table.set m.table name d, Table.nodup_keys_set m.distinct name d⟩

/-- The definition of a type name. -/
def get? (m : Model) (name : String) : Option Definition := Table.get? m.table name

/-- The type names, in model order. -/
def names (m : Model) : List String := Table.keys m.table

/-- Whether a type name has a definition. -/
def contains (m : Model) (name : String) : Bool := Table.contains m.table name

/-- The definitions, in model order. -/
def definitions (m : Model) : List Definition := m.table.map Prod.snd

/-- The model of a list of named definitions, the last one counting where a name is repeated. -/
def ofList (entries : List (String × Definition)) : Model :=
  entries.foldl (fun m e => m.set e.1 e.2) empty

@[simp] theorem contains_iff {m : Model} {name : String} : m.contains name ↔ name ∈ m.names :=
  Table.contains_iff

theorem get?_isSome {m : Model} {name : String} : (m.get? name).isSome ↔ name ∈ m.names :=
  Table.get?_isSome

end Model

end SchemaGen

import SchemaGen.Json.Value
import SchemaGen.Model.Definition
import SchemaGen.Model.Fault
import SchemaGen.Text.Name

/-!
# Reading definitions

A definition is written as an object: with `fields` it is a record, else with `values` an
enumeration, else with `extends` a record without fields. A field type is written as a token, or
as an object that names the token, the item token of an array, and whether the field is required.
A fault names the first rule that is broken, in the order of the checks below.
-/

namespace SchemaGen.Model

open SchemaGen.Json (Value Entries)

/-- A broken rule of a type. -/
def breaks {α : Type} (typeName : String) (rule : ShapeRule) : Except SchemaFault α :=
  .error (.invalidDefinition typeName rule)

/-! ## Field types -/

/-- The field type that a token names: a primitive, or else a reference. -/
def readToken (typeName field token : String) : Except SchemaFault FieldType :=
  if token = "" then breaks typeName (.fieldTypeEmpty field)
  else if token = "array" then breaks typeName (.bareArray field)
  else if token ∈ FieldType.primitiveNames then .ok (.primitive token)
  else .ok (.reference token)

/-- The field type below the mark of a required field. -/
def readShape (typeName field : String) (info : Entries) : Except SchemaFault FieldType :=
  match (Table.get? info "type").bind Value.text? with
  | none => breaks typeName (.fieldWithoutType field)
  | some token =>
    if token = "array" then
      match (Table.get? info "arrayType").bind Value.text? with
      | none => breaks typeName (.arrayWithoutItemType field)
      | some item => (readToken typeName field item).map .array
    else readToken typeName field token

/-- Whether an object has a value that counts as yes under a key. -/
def isSet (entries : Entries) (key : String) : Bool := (Table.get? entries key).any Value.truthy

/-- A field type. -/
def FieldType.read (typeName field : String) : Value → Except SchemaFault FieldType
  | .text token => readToken typeName field token
  | .object info =>
    (readShape typeName field info).map fun shape =>
      if isSet info "required" then .required shape else shape
  | _ => breaks typeName (.fieldShape field)

/-- The fields of a record, in order. -/
def readFields (typeName : String) : Entries → Except SchemaFault (List Field)
  | [] => .ok []
  | (name, info) :: rest => do
    let type ← FieldType.read typeName name info
    return ⟨name, type⟩ :: (← readFields typeName rest)

/-! ## Definitions -/

/-- The object under a key, where a missing value and every value that counts as no stand for the
empty object. -/
def objectAt? (raw : Entries) (key : String) : Option Entries :=
  match Table.get? raw key with
  | none => some []
  | some value => if value.truthy then value.entries? else some []

/-- The parent that a record names; null stands for none. -/
def readParent (typeName : String) (raw : Entries) : Except SchemaFault (Option String) :=
  match Table.get? raw "extends" with
  | none | some .null => .ok none
  | some (.text parent) =>
    if parent = "" then breaks typeName .extendsNotName else .ok (some parent)
  | some _ => breaks typeName .extendsNotName

/-- A record. Every field name is checked before any field type. -/
def Record.read (typeName : String) (raw : Entries) : Except SchemaFault Record := do
  let some fields := objectAt? raw "fields" | breaks typeName .fieldsNotObject
  let parent ← readParent typeName raw
  let some metadata := objectAt? raw "meta" | breaks typeName .metaNotObject
  if let some bad := (Table.keys fields).find? (!Text.isGraphQLName ·) then
    breaks typeName (.fieldNameInvalid bad)
  return {
    name := typeName
    fields := ← readFields typeName fields
    parent := parent
    dbBase := isSet metadata "dbBase" }

/-- The texts of a list that holds nothing else. -/
def textItems? : Value → Option (List String)
  | .list items => items.mapM Value.text?
  | _ => none

/-- An enumeration. -/
def Enumeration.read (typeName : String) (raw : Entries) (values : Value) :
    Except SchemaFault Enumeration := do
  let some values := textItems? values | breaks typeName .valuesNotTexts
  if values.isEmpty then breaks typeName .valuesEmpty
  if let some bad := values.find? (!Text.isGraphQLName ·) then
    breaks typeName (.valueInvalid bad)
  if Table.contains raw "extends" then breaks typeName .enumerationExtends
  return ⟨typeName, values⟩

/-- The definition of a type. -/
def Definition.read (typeName : String) : Value → Except SchemaFault Definition
  | .object raw =>
    match Table.contains raw "fields", Table.get? raw "values", Table.contains raw "extends" with
    | true, _, _ => (Record.read typeName raw).map .record
    | false, some values, _ => (Enumeration.read typeName raw values).map .enumeration
    | false, none, true => (Record.read typeName raw).map .record
    | false, none, false => breaks typeName .neitherFieldsNorValues
  | _ => breaks typeName .definitionNotObject

end SchemaGen.Model

import SchemaGen.Model.Reader
import SchemaGen.Traced

/-!
# Reading a model

All definitions are read first, in order; then what they refer to is checked, so that a type may
be mentioned before it is defined. A record that extends an enumeration is a fault. A field whose
type is neither a primitive nor in the model is only reported.
-/

namespace SchemaGen

open SchemaGen.Json (Value Entries)

namespace Model

/-- The definitions of an object's entries. -/
def readDefinitions (entries : Entries) : Except SchemaFault Model :=
  entries.foldlM (fun m e => return m.set e.1 (← Definition.read e.1 e.2)) Model.empty

/-- The reports on the fields of a record whose types the model does not have. -/
def unknownReferences (m : Model) (r : Record) : List Event :=
  r.fields.flatMap fun field =>
    (field.type.references.filter (!m.contains ·)).map (.unknownReference r.name field.name)

/-- The enumeration that a record extends, if it does. -/
def extendedEnumeration? (m : Model) (r : Record) : Option Enumeration :=
  match r.namedParent?.bind m.get? with
  | some (.enumeration e) => some e
  | _ => none

/-- Checks what a definition refers to. -/
def checkDefinition (m : Model) : Definition → Traced Unit
  | .record r =>
    match m.extendedEnumeration? r with
    | some e => .fail (.schema (.invalidDefinition r.name (.extendsEnumeration e.name)))
    | none => ⟨m.unknownReferences r, .ok ()⟩
  | _ => pure ()

/-- Checks what all definitions refer to, in model order. -/
def checkReferences (m : Model) : Traced Unit := m.definitions.forM m.checkDefinition

/-- The model that a value writes. -/
def read : Value → Traced Model
  | .object entries => do
    let m ← (readDefinitions entries).mapError Fault.schema
    m.checkReferences
    return m
  | value => .fail (.noMember value "items")

end Model

end SchemaGen

import SchemaGen.Json.Literal
import SchemaGen.Primitive
import SchemaGen.Text.Block

/-!
# TypeScript declarations

A record becomes an interface that extends its parent's, or a type alias where it only renames its
parent; an enumeration becomes an enum of string members. Whether a field is required shows on its
name and not on its type.
-/

namespace SchemaGen.TypeScript

open SchemaGen.Model

/-- The counterparts of the primitives. -/
def primitives : Table String :=
  [("string", "string"), ("number", "number"), ("boolean", "boolean"), ("id", "string"),
   ("any", "any")]

/-- The type of a field. -/
def typeText : FieldType → Except Fault String
  | .required inner => typeText inner
  | .array item => (typeText item).map (· ++ "[]")
  | .reference name => .ok name
  | .primitive name => primitiveIn primitives name
  | .shapeless => .error .unsupportedType

/-- The line of a field, whose name carries a question mark unless the field is required. -/
def fieldLine (field : Field) : Except Fault String :=
  (typeText field.type).map fun text =>
    let mark := if field.type.isRequired then "" else "?"
    Json.propertyName field.name ++ mark ++ ": " ++ text ++ ";"

/-- The declaration of a record. -/
def recordCode (r : Record) : Except Fault String :=
  match r.fields, r.parent with
  | [], some parent => .ok ("export type " ++ r.name ++ " = " ++ parent ++ ";")
  | fields, _ => do
    let lines ← fields.mapM fieldLine
    let extension := match r.namedParent? with
      | some parent => " extends " ++ parent
      | none => ""
    return Text.block ("export interface " ++ r.name ++ extension ++ " \x7b") lines "\x7d"

/-- The line of an enum member. -/
def memberLine (value : String) : String :=
  Json.propertyName value ++ " = " ++ Json.stringLiteral value ++ ","

/-- The declaration of an enumeration. -/
def enumCode (e : Enumeration) : String :=
  Text.block ("export enum " ++ e.name ++ " \x7b") (e.values.map memberLine) "\x7d"

/-- The declaration of a type. -/
def code : Definition → Except Fault String
  | .record r => recordCode r
  | .enumeration e => .ok (enumCode e)
  | .bare name => .error (.bareDefinition name)

end SchemaGen.TypeScript

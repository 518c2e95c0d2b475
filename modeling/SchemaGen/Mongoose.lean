import SchemaGen.Json.Literal
import SchemaGen.Primitive
import SchemaGen.Settings
import SchemaGen.Text.Block

/-!
# Mongoose schema definitions

Every type becomes a constant whose name ends in the configured suffix: a record an object that
spreads its parent's constant and lists its own paths, or the parent's constant itself where it
only renames it; an enumeration a string path with the allowed values. A path is written as its
plain type, and with options where it is an array or its presence is enforced.
-/

namespace SchemaGen.Mongoose

open SchemaGen.Model

/-- The counterparts of the primitives. -/
def primitives : Table String :=
  [("string", "String"), ("number", "Number"), ("boolean", "Boolean"), ("id", "String"),
   ("any", "\x7b\x7d")]

/-- The name of the constant for a type. -/
def constantName (settings : Settings) (typeName : String) : String :=
  typeName ++ settings.ormSuffix.display

/-- The type of a path. -/
def typeText (settings : Settings) : FieldType → Except Fault String
  | .required inner => typeText settings inner
  | .array item => (typeText settings item).map fun text => "[" ++ text ++ "]"
  | .reference name => .ok (constantName settings name)
  | .primitive name => primitiveIn primitives name
  | .shapeless => .error .unsupportedType

/-- Whether the presence of a field is enforced. -/
def enforced (settings : Settings) (type : FieldType) : Bool :=
  settings.mongooseEnforceRequired.truthy && type.isRequired

/-- The value of a path. -/
def pathValue (settings : Settings) (type : FieldType) : Except Fault String :=
  (typeText settings type.unwrap).map fun text =>
    if enforced settings type then "\x7b type: " ++ text ++ ", required: true \x7d"
    else if type.unwrap.isArray then "\x7b type: " ++ text ++ " \x7d"
    else text

/-- The line of a field. -/
def fieldLine (settings : Settings) (field : Field) : Except Fault String :=
  (pathValue settings field.type).map fun value =>
    Json.propertyName field.name ++ ": " ++ value ++ ","

/-- The start of every constant. -/
def opening (settings : Settings) (typeName : String) : String :=
  "export const " ++ constantName settings typeName ++ ": SchemaDefinition = "

/-- The constant of a record. -/
def recordCode (settings : Settings) (r : Record) : Except Fault String :=
  match r.fields, r.parent with
  | [], some parent => .ok (opening settings r.name ++ constantName settings parent ++ ";")
  | fields, _ => do
    let lines ← fields.mapM (fieldLine settings)
    let spread := match r.namedParent? with
      | some parent => ["..." ++ constantName settings parent ++ ","]
      | none => []
    return Text.block (opening settings r.name ++ "\x7b") (spread ++ lines) "\x7d;"

/-- The constant of an enumeration. -/
def enumCode (settings : Settings) (e : Enumeration) : String :=
  opening settings e.name ++ "\x7b type: String, enum: " ++ Json.stringListLiteral e.values ++
    " \x7d;"

/-- The constant of a type. -/
def code (settings : Settings) : Definition → Except Fault String
  | .record r => recordCode settings r
  | .enumeration e => .ok (enumCode settings e)
  | .bare name => .error (.bareDefinition name)

end SchemaGen.Mongoose

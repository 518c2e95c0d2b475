import SchemaGen.GraphQL.FieldLines
import SchemaGen.Primitive
import SchemaGen.Settings
import SchemaGen.Text.Block
import SchemaGen.Traced

/-!
# GraphQL types

A record becomes a type that lists, between two comments, the lines of its parent and then its own
fields. A persisted base gets the identity field on top, unless it inherits a line for one. An
enumeration becomes an enum. The presence of a field is part of its type here, and so is that of
the items of an array.
-/

namespace SchemaGen.GraphQL

open SchemaGen.Json (Value)
open SchemaGen.Model

/-- The counterparts of the primitives other than `any`, whose scalar is configured. -/
def primitives : Table String :=
  [("string", "String"), ("number", "Int"), ("boolean", "Boolean"), ("id", "ID")]

/-- The type of a field. The configured scalar is a value of any sort and given as it is; all else
is a text. -/
def typeValue (settings : Settings) : FieldType → Except Fault Value
  | .required inner => (typeValue settings inner).map fun value => .text (value.display ++ "!")
  | .array item => (typeValue settings item).map fun value => .text ("[" ++ value.display ++ "!]")
  | .reference name => .ok (.text name)
  | .primitive name =>
    if name = "any" then .ok settings.graphqlAnyScalar
    else (primitiveIn primitives name).map .text
  | .shapeless => .error .unsupportedType

/-- The type of a field as text. -/
def typeText (settings : Settings) (type : FieldType) : Except Fault String :=
  (typeValue settings type).map Value.display

/-- The line of a field. -/
def fieldLine (settings : Settings) (field : Field) : Except Fault String :=
  (typeText settings field.type).map fun text => field.name ++ ": " ++ text

/-- The line of the identity field. -/
def identityLine : String := "_id: ID!"

/-- Whether a line declares the identity field. -/
def declaresIdentity (line : String) : Bool := "_id:".toList.isPrefixOf line.toList

/-- The comment before the lines of a parent. -/
def startMark (parent : String) : String := "# START Inherited from " ++ parent

/-- The comment after the lines of a parent. -/
def endMark (parent : String) : String := "# END Inherited from " ++ parent

/-- The lines that a record takes over from its parent. -/
def inheritedLines (kept : FieldLines) (r : Record) : Except Fault (List String) :=
  match r.parent with
  | none => .ok []
  | some parent =>
    (FieldLines.linesOf kept parent).map fun lines => startMark parent :: lines ++ [endMark parent]

/-- All lines of a record. -/
def recordLines (settings : Settings) (kept : FieldLines) (r : Record) :
    Except Fault (List String) := do
  let inherited ← inheritedLines kept r
  let identity := if r.dbBase && !inherited.any declaresIdentity then [identityLine] else []
  return identity ++ inherited ++ (← r.fields.mapM (fieldLine settings))

/-- The type of a record with the given lines. -/
def typeCode (typeName : String) (lines : List String) : String :=
  Text.block ("type " ++ typeName ++ " \x7b") lines "\x7d"

/-- The enum of an enumeration. -/
def enumCode (e : Enumeration) : String :=
  Text.block ("enum " ++ e.name ++ " \x7b") e.values "\x7d"

/-- The code of a type, and the kept lines with those of the type. A record without lines is
reported. -/
def code (settings : Settings) (kept : FieldLines) : Definition → Traced (String × FieldLines)
  | .record r => do
    let lines ← recordLines settings kept r
    if lines.isEmpty then .report (.emptyType r.name)
    let kept ← FieldLines.keep kept r.name lines
    return (typeCode r.name lines, kept)
  | .enumeration e => return (enumCode e, kept)
  | .bare name => .fail (.bareDefinition name)

/-- The exported constant that holds the code of types, with a blank line between them. -/
def document (settings : Settings) (fragments : List String) : String :=
  "export const " ++ settings.sdlExportName.display ++ " = gql`\n" ++
    "\n".intercalate (fragments.map (· ++ "\n")) ++ "`;"

end SchemaGen.GraphQL

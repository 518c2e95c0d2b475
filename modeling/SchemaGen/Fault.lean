import SchemaGen.Files.Fault
import SchemaGen.Files.ModuleCheck
import SchemaGen.Json.Display
import SchemaGen.Json.Fault
import SchemaGen.Model.Fault
import SchemaGen.Text.CodePoints
import SchemaGen.Text.Utf8

/-!
# Faults

Everything that can end a run early, by cause. The faults of a type model, of a JSON text, of
octets, of a generated module and of the file store come from their own modules; the rest arises
where settings or definitions of odd shape meet the code that uses them.
-/

namespace SchemaGen

/-- The cause that ended a run. -/
inductive Fault where
  /-- The type model is at fault. -/
  | schema (fault : Model.SchemaFault)
  /-- Lines were already kept for a type. -/
  | linesKept (typeName : String)
  /-- Lines were asked for before they were kept. -/
  | linesMissing (typeName : String)
  /-- No type of the model has the name. -/
  | unknownType (name : String)
  /-- A primitive name has no counterpart in the target. -/
  | unmappedPrimitive (name : String)
  /-- A field type without a shape was to be written. -/
  | unsupportedType
  /-- A value without parts was to be taken apart. -/
  | noParts (value : Json.Value)
  /-- A value was asked for a setting, or for entries, that its sort does not have. -/
  | noMember (value : Json.Value) (member : String)
  /-- A value is none of the choices of a setting. -/
  | noChoice (value : Json.Value) (setting : String)
  /-- A settings file holds something other than an object. -/
  | settingsNotObject
  /-- A JSON text is at fault. -/
  | json (fault : Json.Fault)
  /-- Octets are not UTF-8. -/
  | utf8 (fault : Text.Utf8.Fault)
  /-- A text has no UTF-8. -/
  | encoding (fault : Text.EncodingFault)
  /-- A generated module fails a check. -/
  | check (fault : Files.CheckFault)
  /-- The output file is there and must not be replaced. -/
  | outputExists (path : String)
  /-- The file store refused. -/
  | store (fault : Files.StoreFault)
  /-- The program to run is not there. -/
  | programMissing (text : String)
  /-- A word of a command is no text. -/
  | wordNotText (value : Json.Value)
  /-- A word of a command holds the character that ends words. -/
  | wordHoldsNul
  /-- The run of a program broke off with a fault of its own kind. -/
  | runBroken (kind text : String)
  /-- A path that the command needs was not given. -/
  | pathMissing
  deriving DecidableEq

/-- The words for a fault. -/
def Fault.message : Fault → String
  | .schema fault => fault.message
  | .linesKept typeName => "Field lines for " ++ typeName ++ " are already registered"
  | .linesMissing typeName => "Field lines for " ++ typeName ++ " requested before it was emitted"
  | .unknownType name | .unmappedPrimitive name => Text.quoted name
  | .unsupportedType => "Unsupported field spec: FieldSpec()"
  | .noParts value => "'" ++ value.kindName ++ "' object is not iterable"
  | .noMember value member =>
    "'" ++ value.kindName ++ "' object has no attribute '" ++ member ++ "'"
  | .noChoice value setting => value.quoted ++ " is not a valid " ++ setting
  | .settingsNotObject => "expected a JSON object"
  | .json fault => fault.message
  | .utf8 fault => fault.message
  | .encoding fault => fault.message
  | .check fault => fault.message
  | .outputExists path =>
    "Output file already exists: " ++ path ++ ". Use force mode to overwrite."
  | .store fault => fault.message
  | .programMissing text | .runBroken _ text => text
  | .wordNotText value => "expected str, bytes or os.PathLike object, not " ++ value.kindName
  | .wordHoldsNul => "embedded null byte"
  | .pathMissing => "expected str, bytes or os.PathLike object, not NoneType"

end SchemaGen

import SchemaGen.Text.Quoted

/-!
# Faults of a type model

Every fault names the type it concerns and the rule that the type breaks, so that it can be
reported without further context.
-/

namespace SchemaGen.Model

/-- The rule that a definition breaks. -/
inductive ShapeRule where
  | definitionNotObject
  | neitherFieldsNorValues
  | fieldsNotObject
  | extendsNotName
  | metaNotObject
  | fieldNameInvalid (field : String)
  | valuesNotTexts
  | valuesEmpty
  | valueInvalid (value : String)
  | enumerationExtends
  | fieldShape (field : String)
  | fieldWithoutType (field : String)
  | arrayWithoutItemType (field : String)
  | fieldTypeEmpty (field : String)
  | bareArray (field : String)
  | extendsEnumeration (parent : String)
  | fileNotObject
  deriving DecidableEq, Repr

/-- The words for a rule. -/
def ShapeRule.text : ShapeRule → String
  | .definitionNotObject => "definition must be an object"
  | .neitherFieldsNorValues => "definition has neither fields nor values"
  | .fieldsNotObject => "fields must be an object"
  | .extendsNotName => "extends must be a type name"
  | .metaNotObject => "meta must be an object"
  | .fieldNameInvalid field => "field name " ++ Text.quoted field ++ " is not a valid GraphQL name"
  | .valuesNotTexts => "values must be a list of strings"
  | .valuesEmpty => "values must not be empty"
  | .valueInvalid value => "value " ++ Text.quoted value ++ " is not a valid GraphQL name"
  | .enumerationExtends => "an enum cannot extend another type"
  | .fieldShape field => "field " ++ field ++ " must be a type name or an object"
  | .fieldWithoutType field => "field " ++ field ++ " has no type"
  | .arrayWithoutItemType field => "array field " ++ field ++ " has no arrayType"
  | .fieldTypeEmpty field => "field " ++ field ++ " has an empty type"
  | .bareArray field => "field " ++ field ++ " uses array without arrayType"
  | .extendsEnumeration parent => "a record cannot extend enum " ++ parent
  | .fileNotObject => "a model file must contain a JSON object"

/-- A fault of a type model: a definition without a valid shape, a parent that the model does not
have, or a chain of parents that comes back to itself. -/
inductive SchemaFault where
  | invalidDefinition (typeName : String) (rule : ShapeRule)
  | missingParent (typeName parent : String)
  | cyclicInheritance (typeName : String) (chain : List String)
  deriving DecidableEq, Repr

namespace SchemaFault

/-- The type that a fault concerns. -/
def typeName : SchemaFault → String
  | .invalidDefinition typeName _ => typeName
  | .missingParent typeName _ => typeName
  | .cyclicInheritance typeName _ => typeName

/-- The words for the broken rule. -/
def rule : SchemaFault → String
  | .invalidDefinition _ rule => rule.text
  | .missingParent typeName parent =>
    "Broken inheritance tree: " ++ typeName ++ " extends " ++ parent ++ ", which does not exist"
  | .cyclicInheritance _ chain => "Cyclic inheritance: " ++ " -> ".intercalate chain

/-- The words for a fault. -/
def message (f : SchemaFault) : String := f.typeName ++ ": " ++ f.rule

end SchemaFault

end SchemaGen.Model

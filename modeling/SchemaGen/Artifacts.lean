import SchemaGen.GraphQL.Types
import SchemaGen.Hierarchy
import SchemaGen.Model.References
import SchemaGen.Mongoose
import SchemaGen.TypeScript

/-!
# Artifacts of a model

For every type, parents first, its name and its code in the three targets, and one document that
holds the GraphQL code of all types. The hierarchy is complete before any code is generated.
-/

namespace SchemaGen

open SchemaGen.Json (Value)
open SchemaGen.GraphQL (FieldLines)

/-- The code of one type in the three targets. -/
structure TypeCode where
  name : String
  native : String
  orm : String
  sdl : String
  deriving DecidableEq, Repr

/-- The code of all types, parents first, and the GraphQL document. -/
structure Artifacts where
  types : List TypeCode
  sdlDocument : String
  deriving DecidableEq, Repr

namespace Artifacts

/-- The code of types in the given order, after the lines kept so far. -/
def generateTypes (settings : Settings) (m : Model) :
    FieldLines → List String → Traced (List TypeCode)
  | _, [] => pure []
  | kept, name :: rest =>
    match m.get? name with
    | none => .fail (.unknownType name)
    | some definition => do
      .report (.generating name)
      let native ← TypeScript.code definition
      let orm ← Mongoose.code settings definition
      let (sdl, kept) ← GraphQL.code settings kept definition
      return ⟨name, native, orm, sdl⟩ :: (← generateTypes settings m kept rest)

/-- The artifacts of types in the given order. -/
def ofTypes (settings : Settings) (types : List TypeCode) : Artifacts :=
  ⟨types, GraphQL.document settings (types.map TypeCode.sdl)⟩

/-- The artifacts of a model. -/
def ofModel (settings : Settings) (m : Model) : Traced Artifacts := do
  let tree ← Hierarchy.ofModel m
  return ofTypes settings (← generateTypes settings m [] (tree.walk settings.siblingOrder))

/-- The artifacts of the model that a value writes. -/
def ofValue (settings : Settings) (value : Value) : Traced Artifacts := do
  ofModel settings (← Model.read value)

/-- The parts of the generated module: per type its native and its ORM code, at the end the
GraphQL document. -/
def fragments (a : Artifacts) : List String :=
  a.types.flatMap (fun t => [t.native, t.orm]) ++ [a.sdlDocument]

end Artifacts

end SchemaGen

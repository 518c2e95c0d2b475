/-!
# Events

What the program reports while it works, as data: each event knows its level, the component it
comes from and its words.
-/

namespace SchemaGen

/-- How much an event matters. -/
inductive Level where
  | debug
  | info
  | warning
  deriving DecidableEq, Repr

namespace Level

/-- Levels by rising weight. -/
def weight : Level → Nat
  | .debug => 10
  | .info => 20
  | .warning => 30

/-- The name of a level. -/
def name : Level → String
  | .debug => "DEBUG"
  | .info => "INFO"
  | .warning => "WARNING"

end Level

/-- Something worth reporting. -/
inductive Event where
  /-- A field's type is neither a primitive nor in the model. -/
  | unknownReference (typeName field reference : String)
  /-- A type took its place in the hierarchy. -/
  | inserted (child : String) (parent : Option String)
  /-- The code of a type is being generated. -/
  | generating (typeName : String)
  /-- A record has no lines in its GraphQL type. -/
  | emptyType (typeName : String)
  /-- A type is defined in a second file, which counts. -/
  | redefined (typeName first second : String)
  /-- A model file was read. -/
  | loaded (path : String)
  /-- The formatter is not there. -/
  | formatterMissing (executable : String)
  /-- The formatter did not do its work. -/
  | formatterFailed (reason : String)
  /-- The output file was written. -/
  | written (path : String)
  deriving DecidableEq, Repr

namespace Event

/-- The level of an event. -/
def level : Event → Level
  | .inserted .. | .generating .. | .loaded .. => .debug
  | .written .. => .info
  | .unknownReference .. | .emptyType .. | .redefined .. | .formatterMissing ..
  | .formatterFailed .. => .warning

/-- The component that an event comes from. -/
def component : Event → String
  | .unknownReference .. => "model_ast.parser"
  | .inserted .. => "analyzer.inheritance_tree"
  | .generating .. => "generator"
  | .emptyType .. => "backends.graphql_backend"
  | .redefined .. | .loaded .. => "loader"
  | .formatterMissing .. | .formatterFailed .. => "formatters.prettier_formatter"
  | .written .. => "writer"

/-- The words for an event. A parent without a name is shown like the root. -/
def message : Event → String
  | .unknownReference typeName field reference =>
    typeName ++ "." ++ field ++ " references unknown type " ++ reference
  | .inserted child parent =>
    let shown := match parent with
      | none | some "" => "<root>"
      | some parent => parent
    "Inserted " ++ child ++ " under " ++ shown
  | .generating typeName => "Generating " ++ typeName
  | .emptyType typeName => typeName ++ " has no fields; its GraphQL type will be empty"
  | .redefined typeName first second =>
    typeName ++ " is defined in " ++ first ++ " and " ++ second ++ ", using " ++ second
  | .loaded path => "Loaded " ++ path
  | .formatterMissing executable => executable ++ " is not available, output left unformatted"
  | .formatterFailed reason => "prettier failed: " ++ reason
  | .written path => "Done writing to " ++ path

/-- Whether an event is shown when events below a level are not. -/
def atLeast (least : Level) (e : Event) : Bool := least.weight ≤ e.level.weight

end Event

end SchemaGen

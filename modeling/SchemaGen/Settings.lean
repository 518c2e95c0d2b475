import SchemaGen.Fault

/-!
# Settings

The options of a run, read from an object and written back to one. Reading takes the entries in
order and ignores keys it does not know. Only the two choices, the sibling order and the output
mode, are checked; every other value is kept as it is, of whatever sort, and judged where it is
used. A section that is not an object is kept as it is, too, and found at fault on first use.
-/

namespace SchemaGen

open SchemaGen.Json (Value Entries)

/-- The order of types with the same parent. -/
inductive SiblingOrder where
  /-- As they were met in the model. -/
  | discovery
  /-- By name, character by character. -/
  | name
  deriving DecidableEq, Repr

/-- What to do when the output file is already there. -/
inductive OutputMode where
  /-- Refuse to write. -/
  | error
  /-- Replace it. -/
  | force
  deriving DecidableEq, Repr

namespace SiblingOrder

/-- The word for an order. -/
def word : SiblingOrder → String
  | .discovery => "discovery"
  | .name => "name"

/-- All orders. -/
def all : List SiblingOrder := [.discovery, .name]

/-- The order that a value names. -/
def ofValue (value : Value) : Except Fault SiblingOrder :=
  match all.find? fun order => value = .text order.word with
  | some order => .ok order
  | none => .error (.noChoice value "SiblingOrder")

end SiblingOrder

namespace OutputMode

/-- The word for a mode. -/
def word : OutputMode → String
  | .error => "error"
  | .force => "force"

/-- All modes. -/
def all : List OutputMode := [.error, .force]

/-- The mode that a value names. -/
def ofValue (value : Value) : Except Fault OutputMode :=
  match all.find? fun mode => value = .text mode.word with
  | some mode => .ok mode
  | none => .error (.noChoice value "OutputMode")

end OutputMode

/-- A group of settings, or the value that stands in its place. -/
inductive Section (α : Type) where
  | proper (group : α)
  | improper (value : Value)
  deriving DecidableEq

/-- The group of a section that has one; `member` is the setting that is asked for. -/
def Section.get {α : Type} (member : String) : Section α → Except Fault α
  | .proper group => .ok group
  | .improper value => .error (.noMember value member)

/-- How the output file is written. -/
structure OutputSettings where
  mode : OutputMode := .error
  atomicWrite : Value := .bool true
  deriving DecidableEq

/-- How the formatter is run. -/
structure FormatterSettings where
  enabled : Value := .bool false
  printWidth : Value := .int 100
  parser : Value := .text "typescript"
  deriving DecidableEq

/-- The options of a run. -/
structure Settings where
  addGenerationComment : Value := .bool true
  headerLines : Value :=
    .list [.text "import gql from \"graphql-tag\";",
      .text "import \x7b SchemaDefinition \x7d from \"mongoose\";"]
  siblingOrder : SiblingOrder := .discovery
  ormSuffix : Value := .text "Def"
  sdlExportName : Value := .text "AllGql"
  graphqlAnyScalar : Value := .text "Any"
  mongooseEnforceRequired : Value := .bool false
  formatter : Section FormatterSettings := .proper {}
  output : Section OutputSettings := .proper {}
  deriving DecidableEq

namespace OutputSettings

/-- Output settings from their entries. -/
def read (entries : Entries) : Except Fault OutputSettings := do
  let mode ← match Table.get? entries "mode" with
    | none => pure .error
    | some value => OutputMode.ofValue value
  return { mode, atomicWrite := (Table.get? entries "atomic_write").getD (.bool true) }

/-- The entries of output settings. -/
def write (s : OutputSettings) : Entries :=
  [("mode", .text s.mode.word), ("atomic_write", s.atomicWrite)]

end OutputSettings

namespace FormatterSettings

/-- Formatter settings from their entries. -/
def read (entries : Entries) : FormatterSettings where
  enabled := (Table.get? entries "enabled").getD (.bool false)
  printWidth := (Table.get? entries "print_width").getD (.int 100)
  parser := (Table.get? entries "parser").getD (.text "typescript")

/-- The entries of formatter settings. -/
def write (s : FormatterSettings) : Entries :=
  [("enabled", s.enabled), ("print_width", s.printWidth), ("parser", s.parser)]

end FormatterSettings

namespace Settings

/-- Takes one entry into the settings. A key that is no name of a setting is ignored. This has a
limit at the names of the attributes that all objects have, such as `__class__` or `__dict__`,
which are ignored as well and not set. -/
def assign (s : Settings) (key : String) (value : Value) : Except Fault Settings :=
  match key, value with
  | "formatter", .object entries => .ok { s with formatter := .proper (.read entries) }
  | "formatter", value => .ok { s with formatter := .improper value }
  | "output", .object entries => do
    return { s with output := .proper (← OutputSettings.read entries) }
  | "output", value => .ok { s with output := .improper value }
  | "sibling_order", value => do return { s with siblingOrder := ← SiblingOrder.ofValue value }
  | "add_generation_comment", value => .ok { s with addGenerationComment := value }
  | "header_lines", value => .ok { s with headerLines := value }
  | "orm_suffix", value => .ok { s with ormSuffix := value }
  | "sdl_export_name", value => .ok { s with sdlExportName := value }
  | "graphql_any_scalar", value => .ok { s with graphqlAnyScalar := value }
  | "mongoose_enforce_required", value => .ok { s with mongooseEnforceRequired := value }
  | _, _ => .ok s

/-- Settings from a value; what is not given has its default. -/
def read : Value → Except Fault Settings
  | .object entries => entries.foldlM (fun s e => s.assign e.1 e.2) {}
  | value => .error (.noMember value "items")

/-- The parts of the header lines, in order. -/
def headerParts (s : Settings) : Except Fault (List Value) :=
  match s.headerLines.parts? with
  | some parts => .ok parts
  | none => .error (.noParts s.headerLines)

/-- Settings as a value. -/
def write (s : Settings) : Except Fault Value := do
  let headerLines ← s.headerParts
  let formatter ← s.formatter.get "enabled"
  let output ← s.output.get "mode"
  return .object [
    ("add_generation_comment", s.addGenerationComment),
    ("header_lines", .list headerLines),
    ("sibling_order", .text s.siblingOrder.word),
    ("orm_suffix", s.ormSuffix),
    ("sdl_export_name", s.sdlExportName),
    ("graphql_any_scalar", s.graphqlAnyScalar),
    ("mongoose_enforce_required", s.mongooseEnforceRequired),
    ("formatter", .object formatter.write),
    ("output", .object output.write)]

/-- Whether reading what was written gives the same settings. -/
def roundTrips (s : Settings) : Bool :=
  match s.write.bind read with
  | .ok t => s = t
  | .error _ => false

/-- The settings with the output file replaced where it exists. -/
def forceOutput (s : Settings) : Except Fault Settings := do
  let output ← s.output.get "mode"
  return { s with output := .proper { output with mode := .force } }

/-- The settings with the formatter on. -/
def enableFormatter (s : Settings) : Except Fault Settings := do
  let formatter ← s.formatter.get "enabled"
  return { s with formatter := .proper { formatter with enabled := .bool true } }

end Settings

end SchemaGen

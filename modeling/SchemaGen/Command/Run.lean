import SchemaGen.Command.Options
import SchemaGen.Files.ModelFiles
import SchemaGen.Files.OutputFile

/-!
# Running the command

One run of the command over a file store: the words are understood and the paths resolved, the
settings are read and overridden by the options, the model is read, its module generated, and the
output file written. A run ends in one of five ways, which decide the exit code and what is shown.
-/

namespace SchemaGen.Command

open SchemaGen.Files (Store Path Location)
open SchemaGen.Json (Value)

/-- The request that the words of a command line make. Paths are places, found by names alone. -/
structure Request where
  config : Option Location := none
  force : Bool := false
  format : Bool := false
  siblingOrder : Option SiblingOrder := none
  verbose : Bool := false
  model : Option Location := none
  output : Option Location := none
  deriving DecidableEq

/-- How the words of a command line are understood. -/
inductive Understood where
  | wrong
  | help
  | request (request : Request)
  deriving DecidableEq

/-- The sibling order with a word, where a word is given; an inner `none` for an unknown word. -/
def orderOfWord? : Option String → Option (Option SiblingOrder)
  | none => some none
  | some word => (SiblingOrder.all.find? (·.word = word)).map some

/-- The place that a word names, where a word is given. -/
def placeOf (s : Store) (word : Option String) : Option Location :=
  word.map fun word => Files.resolve s.cwd (Path.ofString word)

/-- Whether there is something at a place that was given. -/
def presentOrAbsent (s : Store) (place : Option Location) : Bool :=
  place.all fun place => s.pathExists (Path.ofLocation place)

/-- What the words of a command line ask for. The help comes before all other checks of the
values; the model and the settings have to be there, and there are at most two arguments. -/
def understand (s : Store) (words : List String) : Understood :=
  match Given.ofWords words with
  | none => .wrong
  | some given =>
    if "help" ∈ given.flags then .help
    else
      match orderOfWord? (Table.get? given.values "sibling_order") with
      | none => .wrong
      | some siblingOrder =>
        let request : Request := {
          config := placeOf s (Table.get? given.values "config")
          force := given.flags.contains "force"
          format := given.flags.contains "format"
          siblingOrder
          verbose := given.flags.contains "verbose"
          model := placeOf s given.arguments[0]?
          output := placeOf s given.arguments[1]? }
        if presentOrAbsent s request.config && presentOrAbsent s request.model &&
            decide (given.arguments.length ≤ 2) then .request request
        else .wrong

namespace Request

/-- The parameters of the command, options before arguments. -/
def parameters : List Parameter := [
  { kind := .option (.plain .null), name := "config", spellings := ["--config", "-c"],
    isPath := true },
  { kind := .flag, name := "force", spellings := ["--force", "-f"] },
  { kind := .flag, name := "format_output", spellings := ["--format"] },
  { kind := .option (.plain .null), name := "sibling_order", spellings := ["--sibling-order"] },
  { kind := .flag, name := "verbose", spellings := ["--verbose", "-v"] },
  { kind := .argument, name := "path", isPath := true },
  { kind := .argument, name := "output", isPath := true }]

/-- A place as the value of a parameter. -/
def placeSetting (place : Option Location) : Setting :=
  .plain <| match place with
    | none => .null
    | some place => .text (Path.ofLocation place).display

/-- The values of the parameters. -/
def settings (r : Request) : Table Setting := [
  ("config", placeSetting r.config),
  ("force", .plain (.bool r.force)),
  ("format_output", .plain (.bool r.format)),
  ("sibling_order", .plain <| match r.siblingOrder with
    | none => .null
    | some order => .text order.word),
  ("verbose", .plain (.bool r.verbose)),
  ("path", placeSetting r.model),
  ("output", placeSetting r.output)]

/-- The command line of a request. -/
def commandLine (r : Request) : String := invocation programName parameters (some r.settings)

end Request

/-! ## Ending -/

/-- How a run ends. -/
inductive Ending where
  /-- The words are not understood. -/
  | misused
  /-- The help is shown. -/
  | helped
  /-- The output file is written. -/
  | finished
  /-- A fault that the command explains. -/
  | refused (explanation : String)
  /-- A fault that it does not expect. -/
  | crashed (fault : Fault)
  deriving DecidableEq

/-- The exit code of a run. -/
def Ending.exitCode : Ending → Nat
  | .helped | .finished => 0
  | .refused _ | .crashed _ => 1
  | .misused => 2

/-- Whether a fault in a settings file is explained. -/
def isExplainedInSettings : Fault → Bool
  | .noChoice .. | .settingsNotObject | .json _ | .utf8 _ | .noParts _ => true
  | _ => false

/-- How a fault while reading the settings ends the run. -/
def settingsEnding (place : Location) (fault : Fault) : Ending :=
  if isExplainedInSettings fault then
    .refused ("Invalid config " ++ (Path.ofLocation place).name ++ ": " ++ fault.message)
  else .crashed fault

/-- How a fault after the settings are known ends the run. -/
def generationEnding : Fault → Ending
  | .schema fault => .refused ("Invalid type model: " ++ fault.message)
  | .json fault@(.malformed ..) => .refused ("Invalid JSON in type model: " ++ fault.message)
  | .outputExists path => .refused (Fault.message (.outputExists path))
  | .store (.exists path) => .refused (Fault.message (.store (.exists path)))
  | .check fault => .refused fault.message
  | fault => .crashed fault

/-- A run: the file store afterwards, what was reported, and how it ended. -/
structure Run where
  store : Store
  verbose : Bool
  events : List Event
  ending : Ending

namespace Run

/-- The reports that are shown. -/
def shownEvents (r : Run) : List Event :=
  r.events.filter (·.atLeast (if r.verbose then .debug else .warning))

/-- The line of a report, with its level and the full name of its component. -/
def eventLine (e : Event) : String :=
  e.level.name ++ " " ++ programName ++ ".pipeline." ++ e.component ++ ": " ++ e.message

/-- What goes to the standard output. -/
def output (r : Run) : String :=
  match r.ending with
  | .helped => helpText
  | _ => ""

/-- What goes to the standard error output. -/
def errors (r : Run) : String :=
  let explanation := match r.ending with
    | .refused text => ["Error: " ++ text]
    | _ => []
  String.join ((r.shownEvents.map eventLine ++ explanation).map (· ++ "\n"))

end Run

/-! ## Running -/

/-- The settings in a file. -/
def readSettings (s : Store) (place : Location) : Except Fault Settings := do
  match ← Files.readValue s (Path.ofLocation place) with
  | .object entries => Settings.read (.object entries)
  | _ => .error .settingsNotObject

/-- The settings with what the options override. -/
def Request.override (r : Request) (settings : Settings) : Except Fault Settings := do
  let settings ← if r.force then settings.forceOutput else pure settings
  let settings ← if r.format then settings.enableFormatter else pure settings
  return match r.siblingOrder with
    | some siblingOrder => { settings with siblingOrder }
    | none => settings

/-- The path at a place that has to be given. -/
def givenPath (place : Option Location) : Except Fault Path :=
  match place with
  | some place => .ok (.ofLocation place)
  | none => .error .pathMissing

/-- Generates the module that a request asks for. -/
def Request.generate (r : Request) (s : Store) (settings : Settings) (machine : Machine) :
    Traced String := do
  let model ← Files.readModel s (← givenPath r.model)
  ModuleText.generate settings r.commandLine machine model

/-- Generates the module that a request asks for, and writes it. -/
def Request.produce (r : Request) (s : Store) (settings : Settings) (machine : Machine) :
    Store × Traced Unit :=
  let generated := r.generate s settings machine
  match generated.result.bind fun text => (givenPath r.output).map fun path => (text, path) with
  | .error fault => (s, ⟨generated.events, .error fault⟩)
  | .ok (text, path) =>
    let (s, written) := Files.saveOutput s path text settings.output
    (s, ⟨generated.events ++ written.events, written.result⟩)

/-- Runs a request. -/
def Request.run (r : Request) (s : Store) (machine : Machine) : Run :=
  let settings := match r.config with
    | none => Except.ok ({} : Settings)
    | some place => (readSettings s place).mapError (settingsEnding place)
  match settings.bind fun settings => (r.override settings).mapError .crashed with
  | .error ending => { store := s, verbose := r.verbose, events := [], ending }
  | .ok settings =>
    let (s, produced) := r.produce s settings machine
    let ending := match produced.result with
      | .ok () => .finished
      | .error fault => generationEnding fault
    { store := s, verbose := r.verbose, events := produced.events, ending }

/-- Runs the command with the given words. -/
def run (s : Store) (machine : Machine) (words : List String) : Run :=
  match understand s words with
  | .wrong => { store := s, verbose := false, events := [], ending := .misused }
  | .help => { store := s, verbose := false, events := [], ending := .helped }
  | .request request => request.run s machine

end SchemaGen.Command

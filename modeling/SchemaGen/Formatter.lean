import SchemaGen.Json.Display
import SchemaGen.Settings
import SchemaGen.Text.Blank
import SchemaGen.Traced

/-!
# The formatter

An external program that may lay out the generated code. Whether it works is found out once, by
asking for its version, and remembered. A run that fails or takes too long leaves the code as it
was, with a report. Three things are faults. The program may have vanished since it was last seen.
A command is not started when one of its words is no text or holds the character that ends words.
And a run may break off with a fault of another kind, when the program may not be run, say, or when
what it wrote is no text; if this happens to the question for the version, nothing is remembered.

The machine on which programs run is data: whether the program is installed, how the coming runs
end, and which commands were run.
-/

namespace SchemaGen

open SchemaGen.Json (Value)

/-- A program with its arguments, the text given to it, and the seconds it may take. -/
structure ProcessCommand where
  words : List Value
  input : Option String
  timeout : Nat
  deriving DecidableEq

/-- Why a word cannot be one of a command. -/
def wordFault? : Value → Option Fault
  | .text word => if '\x00' ∈ word.toList then some .wordHoldsNul else none
  | value => some (.wordNotText value)

/-- Why a command cannot be started: the fault of its first word that has one. -/
def ProcessCommand.fault? (command : ProcessCommand) : Option Fault :=
  command.words.findSome? wordFault?

/-- How the run of a program ends. -/
inductive ProcessEnd where
  | exited (code : Int) (output errors : String)
  | timedOut
  | failed (text : String)
  | notFound (text : String)
  | broken (kind text : String)
  deriving DecidableEq, Repr

/-- A machine that runs programs: how its coming runs end, and what it has run. -/
structure Machine where
  installed : Bool
  coming : List ProcessEnd
  ran : List ProcessCommand
  deriving DecidableEq

namespace Machine

/-- A machine without the formatter. -/
def bare : Machine := ⟨false, [], []⟩

/-- Starts a command, whatever its words are. -/
def start (m : Machine) (command : ProcessCommand) : ProcessEnd × Machine :=
  let ran := m.ran ++ [command]
  match m.coming with
  | [] => (.notFound "", { m with ran })
  | first :: rest => (first, { m with coming := rest, ran })

/-- Runs a command, if it can be started. -/
def run (m : Machine) (command : ProcessCommand) : Except Fault ProcessEnd × Machine :=
  match command.fault? with
  | some fault => (.error fault, m)
  | none => (.ok (m.start command).1, (m.start command).2)

end Machine

/-- The formatter on a machine, and whether it is known to work. -/
structure Formatter where
  executable : String := "prettier"
  machine : Machine
  known : Option Bool := none
  deriving DecidableEq

namespace Formatter

/-- The command that asks for the version. -/
def versionCommand (f : Formatter) : ProcessCommand :=
  ⟨[.text f.executable, .text "--version"], none, 10⟩

/-- What the end of the question for the version says about whether the formatter works. -/
def verdict : ProcessEnd → Except Fault Bool
  | .exited code _ _ => .ok (decide (code = 0))
  | .timedOut | .failed _ | .notFound _ => .ok false
  | .broken kind text => .error (.runBroken kind text)

/-- Finds out, unless it is known, whether the formatter works. -/
def isAvailable (f : Formatter) : Except Fault Bool × Formatter :=
  match f.known with
  | some known => (.ok known, f)
  | none =>
    if f.machine.installed then
      let (ended, machine) := f.machine.run f.versionCommand
      match ended.bind verdict with
      | .ok works => (.ok works, { f with machine, known := some works })
      | .error fault => (.error fault, { f with machine })
    else (.ok false, { f with known := some false })

/-- The command that formats a text. -/
def formatCommand (f : Formatter) (code : String) (settings : FormatterSettings) : ProcessCommand :=
  let width :=
    if settings.printWidth.truthy then
      [.text "--print-width", .text settings.printWidth.display]
    else []
  ⟨[.text f.executable, .text "--parser", settings.parser] ++ width, some code, 60⟩

/-- The words for a command that took too long. -/
def timeoutText (command : ProcessCommand) : String :=
  "Command '" ++ (Value.list command.words).quoted ++ "' timed out after " ++
    Number.decimal command.timeout ++ " seconds"

/-- What a formatting run makes of a text. -/
def outcome (code : String) (command : ProcessCommand) : ProcessEnd → Traced String
  | .exited exitCode output errors =>
    if exitCode = 0 then pure output
    else ⟨[.formatterFailed (Text.trimBlank errors)], .ok code⟩
  | .timedOut => ⟨[.formatterFailed (timeoutText command)], .ok code⟩
  | .failed text => ⟨[.formatterFailed text], .ok code⟩
  | .notFound text => .fail (.programMissing text)
  | .broken kind text => .fail (.runBroken kind text)

/-- Formats a text, or gives it back as it is. -/
def format (f : Formatter) (code : String) (settings : FormatterSettings) :
    Traced String × Formatter :=
  match f.isAvailable with
  | (.error fault, f) => (.fail fault, f)
  | (.ok false, f) => (⟨[.formatterMissing f.executable], .ok code⟩, f)
  | (.ok true, f) =>
    let command := f.formatCommand code settings
    let (ended, machine) := f.machine.run command
    match ended with
    | .ok ended => (outcome code command ended, { f with machine })
    | .error fault => (.fail fault, { f with machine })

end Formatter

end SchemaGen

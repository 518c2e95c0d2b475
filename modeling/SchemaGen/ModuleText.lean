import SchemaGen.Artifacts
import SchemaGen.Formatter

/-!
# The generated module

The text of the output file: a heading, then the native and the ORM code of every type and the
GraphQL document, with a blank line between all parts. The heading warns against editing, tells on
request by which command the file was made, and ends with the configured header lines.
-/

namespace SchemaGen

open SchemaGen.Json (Value)

/-- The name of the program. -/
def programName : String := "typedefs_to_code"

/-- The version of the program. -/
def programVersion : String := "1.0.0"

namespace ModuleText

/-- The comment that tells by which command the file was made; empty where it is switched off. -/
def generationComment (settings : Settings) (commandLine : String) : String :=
  if settings.addGenerationComment.truthy then
    "Generated by " ++ programName ++ " v" ++ programVersion ++ " : " ++ commandLine
  else ""

/-- The heading, less the line feeds at its end. -/
def heading (settings : Settings) (commandLine : String) : Except Fault String := do
  let parts ← settings.headerParts
  let comment := generationComment settings commandLine
  let lines := "// DO NOT EDIT. Generated file" ::
    (if comment = "" then [] else ["// " ++ comment]) ++ parts.map Value.display
  return Text.trimFinalNewlines (String.join (lines.map (· ++ "\n")))

/-- A heading and the parts of a module as one text. -/
def assemble (heading : String) (fragments : List String) : String :=
  heading ++ "\n\n" ++ "\n\n".intercalate fragments ++ "\n"

/-- The module of the model that a value writes, formatted on the given machine where the settings
ask for it. -/
def generate (settings : Settings) (commandLine : String) (machine : Machine) (model : Value) :
    Traced String := do
  let artifacts ← Artifacts.ofValue settings model
  let text := assemble (← heading settings commandLine) artifacts.fragments
  let formatting ← settings.formatter.get "enabled"
  if formatting.enabled.truthy then (Formatter.format { machine } text formatting).1
  else return text

end ModuleText

end SchemaGen

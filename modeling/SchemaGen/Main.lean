import SchemaGen.Command.Run

/-!
# The program

Takes from the disk into a file store what a run can look at, runs the command over the store, and
brings what it changed back to the disk. No other program is run from here, so the formatter counts
as not installed.
-/

namespace SchemaGen.Command

open SchemaGen.Files (Store Node Path Location)

/-- The places that a command line names, as far as its words are understood. -/
def namedPlaces (s : Store) (words : List String) : List Location :=
  match Given.ofWords words with
  | none => []
  | some given =>
    (Table.get? given.values "config" :: given.arguments.map some).filterMap (placeOf s)

/-- A place and all places above it but the root, highest first. -/
def withAbove (place : Location) : List Location :=
  (List.range place.length).map fun depth => place.take (depth + 1)

/-- Takes what is at a place into a store, and of a directory the names of its model files. -/
def takeIn (s : Store) (place : Location) : IO (Store × List Location) := do
  let path := (← IO.currentDir) / (Path.ofLocation place).display
  if ← path.isDir then
    let names := (← path.readDir).toList.map (·.fileName)
    return (s.put place .directory, (names.filter Files.isModelFileName).map (place ++ [·]))
  else if ← path.pathExists then
    return (s.put place (.file (← IO.FS.readBinFile path).toList), [])
  else return (s, [])

/-- Takes into a store what a command line can lead to: the places that it names, those above
them, and the model files in the directories among the named ones. -/
def takeInNamed (s : Store) (words : List String) : IO Store := do
  let mut s := s
  for place in withAbove s.cwd do
    s := (← takeIn s place).1
  for named in namedPlaces s words do
    for place in withAbove named do
      let (after, inside) ← takeIn s place
      s := after
      if place = named then
        for file in inside do
          s := (← takeIn s file).1
  return s

/-- The temporary place from which a file takes its place. -/
def temporaryPlace (s : Store) (place : Location) : Location :=
  place.dropLast ++ [s.temporaryName (place.getLastD "")]

/-- Brings what is new or changed at a place back to the disk. A file takes its place in one
step. -/
def bringBack (before : Store) (place : Location) (node : Node) : IO Unit := do
  if before.at? place = some node then return
  let path := (Path.ofLocation place).display
  match node with
  | .directory => IO.FS.createDir path
  | .file content =>
    let temporary := (Path.ofLocation (temporaryPlace before place)).display
    IO.FS.withFile temporary .writeNew fun handle => handle.write ⟨content.toArray⟩
    IO.FS.rename temporary path

/-- What is said about a run besides its reports. -/
def remark : Ending → String
  | .misused => ((helpText.splitOn "\n").headD "") ++ "\n"
  | .crashed fault => programName ++ ": " ++ fault.message ++ "\n"
  | _ => ""

end SchemaGen.Command

/-- Runs the command with the words of the command line, on the disk. -/
def main (words : List String) : IO UInt32 := do
  let cwd := (SchemaGen.Files.Path.ofString (← IO.currentDir).toString).parts
  let before ← SchemaGen.Command.takeInNamed (.empty cwd) words
  let ran := SchemaGen.Command.run before SchemaGen.Machine.bare words
  for (place, node) in ran.store.nodes do
    SchemaGen.Command.bringBack before place node
  (← IO.getStdout).putStr ran.output
  (← IO.getStderr).putStr (ran.errors ++ SchemaGen.Command.remark ran.ending)
  return UInt32.ofNat ran.ending.exitCode

import SchemaGen.Files.Store
import SchemaGen.Json.Reader
import SchemaGen.Text.Newline
import SchemaGen.Traced

/-!
# Model files

A model is one file, or the files of a directory whose names end in `.json`, merged in the order of
their names. Where a type is defined again, the later definition counts at the place of the first,
and this is reported. A path at which nothing is gives a model without types.
-/

namespace SchemaGen.Files

open SchemaGen.Json (Value Entries)

/-- The text of octets, with unified line ends. -/
def textOf (content : List UInt8) : Except Fault (List Char) :=
  match Text.Utf8.decode content with
  | .ok text => .ok (Text.unifyNewlines text)
  | .error fault => .error (.utf8 fault)

/-- The value that octets write. -/
def valueOf (content : List UInt8) : Except Fault Value := do
  (Json.read (← textOf content)).mapError Fault.json

/-- The value in a file. -/
def readValue (s : Store) (path : Path) : Except Fault Value := do
  valueOf (← (s.read path).mapError Fault.store)

/-- The definitions in one model file. -/
def readModelFile (s : Store) (path : Path) : Except Fault Entries := do
  match ← readValue s path with
  | .object entries => return entries
  | _ => .error (.schema (.invalidDefinition path.name .fileNotObject))

/-- Definitions merged so far, each type with the file that last defined it. -/
structure Merged where
  entries : Entries
  sources : Table String

namespace Merged

/-- Nothing merged. -/
def empty : Merged := ⟨[], []⟩

/-- The report on a type that was defined before. -/
def redefinition (m : Merged) (file typeName : String) : List Event :=
  match Table.get? m.sources typeName with
  | some first => [.redefined typeName first file]
  | none => []

/-- Takes in one definition of a file. -/
def add (m : Merged) (file typeName : String) (value : Value) : Merged :=
  ⟨Table.set m.entries typeName value, Table.set m.sources typeName file⟩

/-- Takes in the definitions of a file. -/
def addFile (m : Merged) (file : String) : Entries → Traced Merged
  | [] => pure m
  | (typeName, value) :: rest => do
    (⟨m.redefinition file typeName, .ok ()⟩ : Traced Unit)
    addFile (m.add file typeName value) file rest

end Merged

/-- Whether a name is that of a model file. -/
def isModelFileName (name : String) : Bool := ".json".toList.isSuffixOf name.toList

/-- The names of the model files in a directory, in order. -/
def modelFileNames (s : Store) (path : Path) : List String :=
  match s.locate path with
  | .error _ => []
  | .ok location =>
    if s.isDirectory path then
      ((s.entryNames location).filter isModelFileName).mergeSort fun a b => decide (a ≤ b)
    else []

/-- Reads a model file of a directory into the definitions merged so far. -/
def mergeFile (s : Store) (directory : Path) (m : Merged) (name : String) : Traced Merged := do
  let path := directory.child name
  let m ← m.addFile name (← readModelFile s path)
  .report (.loaded path.display)
  return m

/-- The model at a path, as the value of its definitions. -/
def readModel (s : Store) (path : Path) : Traced Value := do
  if s.isFile path then return .object (← readModelFile s path)
  else
    let m ← (modelFileNames s path).foldlM (mergeFile s path) Merged.empty
    return .object m.entries

end SchemaGen.Files

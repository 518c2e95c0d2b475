import SchemaGen.Text.Quoted

/-!
# Faults of the file store

What the file store refuses, with the path that was asked for.
-/

namespace SchemaGen.Files

/-- A refusal of the file store. -/
inductive StoreFault where
  | exists (path : String)
  | notFound (path : String)
  | isDirectory (path : String)
  | notDirectory (path : String)
  | busy (path : String)
  deriving DecidableEq, Repr

namespace StoreFault

/-- The error number and the words for a refusal. -/
def reason : StoreFault → String × String
  | .exists _ => ("17", "File exists")
  | .notFound _ => ("2", "No such file or directory")
  | .isDirectory _ => ("21", "Is a directory")
  | .notDirectory _ => ("20", "Not a directory")
  | .busy _ => ("16", "Device or resource busy")

/-- The path that was asked for. -/
def path : StoreFault → String
  | .exists p | .notFound p | .isDirectory p | .notDirectory p | .busy p => p

/-- The words for a refusal, with its number and its path. -/
def message (f : StoreFault) : String :=
  "[Errno " ++ f.reason.1 ++ "] " ++ f.reason.2 ++ ": " ++ Text.quoted f.path

end StoreFault

end SchemaGen.Files

import SchemaGen.Files.Path
import SchemaGen.Json.Display

/-!
# The command line of a run

Rebuilds the line by which a command was called from the values of its parameters, for the comment
in the generated module. Arguments come first, options after them. What was not given, and an
option that has its default, is left out. A path shows by its last name only, so that the line does
not depend on where files lie.
-/

namespace SchemaGen.Command

open SchemaGen.Json (Value)

/-- The value of a parameter: a plain value, or a member of a set of choices with its own name. -/
inductive Setting where
  | plain (value : Value)
  | choice (label : String) (value : Value)
  deriving DecidableEq

namespace Setting

/-- The text that stands for a setting wherever only texts are known. -/
def label : Setting → String
  | .plain value => value.display
  | .choice label _ => label

/-- Whether a setting counts as not given. -/
def isAbsent : Setting → Bool
  | .plain .null => true
  | .plain (.bool false) => true
  | _ => false

/-- Whether two settings are alike: plain ones by amount, a member of a set only with itself. This
has a limit where the members of a set are texts as well. Such a member equals its text, but here a
member and a plain text are never alike. -/
def alike : Setting → Setting → Bool
  | .plain x, .plain y => x.equal y
  | .choice x _, .choice y _ => x == y
  | _, _ => false

/-- A setting as it is shown; a path by its last name. -/
def shown (isPath : Bool) (s : Setting) : String :=
  if isPath then Files.lastName s.label
  else
    match s with
    | .plain value => value.display
    | .choice _ value => value.display

end Setting

/-- What sort of parameter it is: an argument known by its place, a flag that is there or not, or
an option with a value and a default. -/
inductive ParameterKind where
  | argument
  | flag
  | option (default : Setting)
  deriving DecidableEq

/-- A parameter of a command, with the spellings that call it up. -/
structure Parameter where
  kind : ParameterKind
  name : String
  spellings : List String := []
  isPath : Bool := false
  deriving DecidableEq

namespace Parameter

/-- The spelling that is shown. -/
def spelling (p : Parameter) : String := p.spellings.headD ("--" ++ p.name)

/-- The value of a parameter, where it was given. -/
def given? (values : Table Setting) (p : Parameter) : Option Setting :=
  (Table.get? values p.name).filter (!·.isAbsent)

/-- The words of an argument. -/
def argumentWords (values : Table Setting) (p : Parameter) : List String :=
  match p.kind, p.given? values with
  | .argument, some value => [value.shown p.isPath]
  | _, _ => []

/-- The words of an option or a flag. -/
def optionWords (values : Table Setting) (p : Parameter) : List String :=
  match p.kind, p.given? values with
  | .flag, some _ => [p.spelling]
  | .option default, some value =>
    if value.alike default then [] else [p.spelling, value.shown p.isPath]
  | _, _ => []

end Parameter

/-- The command line of a program with the given values, if there are any. -/
def invocation (program : String) (parameters : List Parameter)
    (values : Option (Table Setting)) : String :=
  match values with
  | none => program
  | some values =>
    if values.isEmpty then program
    else
      " ".intercalate (program :: parameters.flatMap (·.argumentWords values) ++
        parameters.flatMap (·.optionWords values))

end SchemaGen.Command

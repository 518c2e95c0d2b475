import SchemaGen.Command.Invocation
import SchemaGen.ModuleText

/-!
# The options of the command

Options and arguments may be mixed; two dashes alone end the options. A long option takes its value
after an equals sign or from the next word, a short one from the rest of its word or from the next
word, and short flags may share one word. Of a repeated option the last value counts.
-/

namespace SchemaGen.Command

/-- An option of the command. -/
structure OptionForm where
  name : String
  long : String
  short : Option Char := none
  takesValue : Bool := false
  deriving DecidableEq, Repr

/-- The options, in the order in which the help lists them. -/
def optionForms : List OptionForm := [
  { name := "config", long := "--config", short := some 'c', takesValue := true },
  { name := "force", long := "--force", short := some 'f' },
  { name := "format", long := "--format" },
  { name := "sibling_order", long := "--sibling-order", takesValue := true },
  { name := "verbose", long := "--verbose", short := some 'v' },
  { name := "help", long := "--help" }]

/-- The page that `--help` shows. -/
def helpText : String := "\n".intercalate [
  "Usage: " ++ programName ++ " [OPTIONS] [PATH] [OUTPUT]",
  "",
  "  Generate TypeScript, Mongoose and GraphQL code from the type model at PATH.",
  "",
  "Options:",
  "  -c, --config PATH",
  "  -f, --force                     Overwrite the output file if it exists",
  "  --format                        Run prettier on the generated module",
  "  --sibling-order [discovery|name]",
  "                                  Order of unrelated types sharing a parent",
  "  -v, --verbose                   Log every inserted and generated type",
  "  --help                          Show this message and exit.",
  ""]

/-- What the words of a command line give: the flags, the values of options, and the rest. -/
structure Given where
  flags : List String := []
  values : Table String := []
  arguments : List String := []
  deriving DecidableEq, Repr

namespace Given

/-- Adds a flag. -/
def addFlag (g : Given) (name : String) : Given := { g with flags := g.flags ++ [name] }

/-- Adds the value of an option. -/
def addValue (g : Given) (name value : String) : Given :=
  { g with values := Table.set g.values name value }

/-- Adds an argument. -/
def addArgument (g : Given) (word : String) : Given :=
  { g with arguments := g.arguments ++ [word] }

end Given

/-- What one word does: it is complete, or leaves an option whose value is the next word. -/
structure WordRead where
  given : Given
  awaiting : Option String := none

/-- The characters before and after the first equals sign, if there is one. -/
def splitAtEquals : List Char → List Char × Option (List Char)
  | [] => ([], none)
  | c :: rest =>
    if c = '=' then ([], some rest)
    else
      let (before, after) := splitAtEquals rest
      (c :: before, after)

/-- A word as a long option; `none` where there is no such option, an inner `none` where the
option is used wrongly. -/
def readLong (g : Given) (word : List Char) : Option (Option WordRead) :=
  let (before, value) := splitAtEquals word
  match optionForms.find? fun form => form.long.toList = before with
  | none => none
  | some form =>
    some <|
      match form.takesValue, value with
      | true, some value => some { given := g.addValue form.name (String.ofList value) }
      | true, none => some { given := g, awaiting := some form.name }
      | false, none => some { given := g.addFlag form.name }
      | false, some _ => none

/-- The letters of a word as short options. -/
def readShort (g : Given) : List Char → Option WordRead
  | [] => some { given := g }
  | letter :: rest =>
    match optionForms.find? fun form => form.short = some letter with
    | none => none
    | some form =>
      if form.takesValue then
        if rest.isEmpty then some { given := g, awaiting := some form.name }
        else some { given := g.addValue form.name (String.ofList rest) }
      else readShort (g.addFlag form.name) rest

/-- A word that starts with a dash and has more to it. -/
def readOption (g : Given) (word : List Char) : Option WordRead :=
  match readLong g word with
  | some read => read
  | none =>
    match word with
    | '-' :: '-' :: _ => none
    | _ => readShort g (word.drop 1)

/-- The words of a command line; `none` where they are not understood. -/
def readWords (g : Given) : List String → Option Given
  | [] => some g
  | word :: rest =>
    if word = "--" then some { g with arguments := g.arguments ++ rest }
    else if word.toList.head? = some '-' ∧ 1 < word.toList.length then
      match readOption g word.toList with
      | none => none
      | some { given, awaiting := none } => readWords given rest
      | some { given, awaiting := some name } =>
        match rest with
        | [] => none
        | value :: rest => readWords (given.addValue name value) rest
    else readWords (g.addArgument word) rest

/-- The words of a command line. -/
def Given.ofWords (words : List String) : Option Given := readWords {} words

end SchemaGen.Command

/-!
# Blocks of lines

A head line, body lines indented by two spaces, and a last line without a line end: the outer form
of every declaration with a body.
-/

namespace SchemaGen.Text

/-- A body line of a block. -/
def bodyLine (line : String) : String := "  " ++ line ++ "\n"

/-- A head line, indented body lines and a last line. -/
def block (head : String) (body : List String) (last : String) : String :=
  head ++ "\n" ++ String.join (body.map bodyLine) ++ last

end SchemaGen.Text

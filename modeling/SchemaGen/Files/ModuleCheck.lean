import SchemaGen.Number.Decimal

/-!
# Structural checks of a module

Before a generated module replaces a file, its text is checked as a whole: something is exported,
braces balance in number, and template literals are closed. The first failing check is reported.
-/

namespace SchemaGen.Files

/-- A check that a module fails. -/
inductive CheckFault where
  | noExports
  | unbalancedBraces (opened closed : Nat)
  | unterminatedTemplate
  deriving DecidableEq, Repr

/-- The words for a failed check. -/
def CheckFault.message : CheckFault → String
  | .noExports => "Generated module has no exports"
  | .unbalancedBraces opened closed =>
    "Generated module has unbalanced braces: " ++ Number.decimal opened ++ " open, " ++
      Number.decimal closed ++ " close"
  | .unterminatedTemplate => "Generated module has an unterminated template literal"

/-- Whether a text holds another one, at any place. -/
def holds (part : List Char) : List Char → Bool
  | [] => part.isEmpty
  | c :: rest => part.isPrefixOf (c :: rest) || holds part rest

/-- The first check that the text of a module fails, if any. -/
def checkModule (content : String) : Except CheckFault Unit :=
  let text := content.toList
  let opened := text.count '\x7b'
  let closed := text.count '\x7d'
  if !holds "export ".toList text then .error .noExports
  else if opened ≠ closed then .error (.unbalancedBraces opened closed)
  else if text.count (Char.ofNat 0x60) % 2 ≠ 0 then .error .unterminatedTemplate
  else .ok ()

end SchemaGen.Files

import SchemaGen.Json.Writer
import SchemaGen.Main
import SchemaGen.Proofs.Growth
import SchemaGen.Proofs.Preorder
import SchemaGen.Proofs.Reading
import SchemaGen.Proofs.Grammar
import SchemaGen.Proofs.Translation
import SchemaGen.Proofs.Flattening
import SchemaGen.Proofs.Generation
import SchemaGen.Proofs.Outcome
import SchemaGen.Proofs.Diagnosis
import SchemaGen.Proofs.Histories
import SchemaGen.Proofs.Traversal
import SchemaGen.Proofs.LinkedTraversal
import SchemaGen.Proofs.Discovery
import SchemaGen.Proofs.Balance
import SchemaGen.Proofs.Fragments
import SchemaGen.Proofs.ModuleCheck
import SchemaGen.Proofs.Decomposition
import SchemaGen.Proofs.Merging
import SchemaGen.Proofs.Spellings
import SchemaGen.Proofs.Literals
import SchemaGen.Proofs.FieldTypes
import SchemaGen.Proofs.TypeNotation
import SchemaGen.Proofs.Declarations
import SchemaGen.Proofs.Scope
import SchemaGen.Proofs.Agreement
import SchemaGen.Proofs.Submodel
import SchemaGen.Proofs.Subtree
import SchemaGen.Proofs.Stability
import SchemaGen.Proofs.Independence
import SchemaGen.Proofs.Repetition
import SchemaGen.Proofs.Runs
import SchemaGen.Proofs.Places
import SchemaGen.Proofs.Relocation
import SchemaGen.Proofs.Regeneration
import SchemaGen.Proofs.KeptLines
import SchemaGen.Proofs.RequiredMarks
import SchemaGen.Proofs.Redefinition
import SchemaGen.Proofs.Replacement
import SchemaGen.Proofs.FileSystem
import SchemaGen.Proofs.CheckedOutput
import SchemaGen.Proofs.SettingsRoundTrip
import SchemaGen.Proofs.FormatterFaults
import SchemaGen.Proofs.FormatterRuns
import SchemaGen.Proofs.UnknownTypes
import SchemaGen.Proofs.ListedNames
import SchemaGen.Proofs.EmptyTypes
import SchemaGen.Proofs.CommandWords
import SchemaGen.Proofs.PropertyNames

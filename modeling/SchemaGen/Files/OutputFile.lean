import SchemaGen.Files.ModuleCheck
import SchemaGen.Files.Store
import SchemaGen.Settings
import SchemaGen.Text.CodePoints
import SchemaGen.Traced

/-!
# The output file

Writing in one step: the content goes to a temporary file beside the target, is checked there, and
takes the target's place as a whole; when a step is refused, the temporary file is taken away
again. Writing in place does neither. Directories that are missing above the target are made in
both ways, and stay.

A file is filled in two steps. It is opened, which empties it, and then the content is encoded and
written. The content may have no octets, and then the open file stays empty. The checks look for
letters and signs only, so it does not matter to them how a code point without octets is shown.
-/

namespace SchemaGen.Files

open SchemaGen.Text (RawText)

/-- Replaces the file at a path in one step, after the checks if they are wanted. -/
def replaceFile (s : Store) (path : Path) (content : RawText) (checked : Bool) :
    Store × Except Fault Unit :=
  match s.makeParent path with
  | (s, .error fault) => (s, .error (.store fault))
  | (s, .ok ()) =>
    match s.locate path.parent with
    | .error fault => (s, .error (.store fault))
    | .ok directory =>
      let temporary := directory ++ [s.temporaryName path.name]
      let opened := s.put temporary (.file [])
      match content.encode with
      | .error fault => (opened.remove temporary, .error (.encoding fault))
      | .ok octets =>
        let filled := opened.put temporary (.file octets)
        let verdict : Except Fault Store := do
          if checked then (checkModule content.shown).mapError Fault.check
          (filled.moveTo temporary path).mapError Fault.store
        match verdict with
        | .ok s => (s, .ok ())
        | .error fault => (filled.remove temporary, .error fault)

/-- Writes the file at a path in place. -/
def overwriteFile (s : Store) (path : Path) (content : RawText) : Store × Except Fault Unit :=
  match s.makeParent path with
  | (s, .error fault) => (s, .error (.store fault))
  | (s, .ok ()) =>
    match s.write path [] with
    | .error fault => (s, .error (.store fault))
    | .ok opened =>
      match content.encode with
      | .error fault => (opened, .error (.encoding fault))
      | .ok octets =>
        match opened.write path octets with
        | .ok s => (s, .ok ())
        | .error fault => (opened, .error (.store fault))

/-- Writes the output file as the settings say, and reports it. -/
def saveOutput (s : Store) (path : Path) (content : RawText) (output : Section OutputSettings) :
    Store × Traced Unit :=
  match output.get "mode" with
  | .error fault => (s, .fail fault)
  | .ok settings =>
    if settings.mode = .error ∧ s.pathExists path then
      (s, .fail (.outputExists path.display))
    else
      let (s, result) :=
        if settings.atomicWrite.truthy then replaceFile s path content true
        else overwriteFile s path content
      (s, do
        result
        .report (.written path.display))

end SchemaGen.Files

import SchemaGen.Proofs.Replacement

/-!
# Output that was checked

A file that is replaced in one step holds a module that has passed the
checks. A module that fails one is refused for that check, and all files stay
as they are, unless something refused it before its text was looked at: the
file that must not be replaced, a directory that cannot be made, or a text
that has no octets (`replaceFile_of_fails`). The checks are part of this way
of writing and not of saving, so a setting that is about the way decides about
them too. Written in place, a module is saved whenever it has octets and its
place can be written, whatever its text is. `saveOutput_checked` says both.
-/

namespace SchemaGen.Files

open SchemaGen.Text (RawText EncodingFault)

variable {s : Store} {path : Path} {content : RawText} {failed : CheckFault}
  {output : OutputSettings}

/-- The directory of the path is there or can be made, the content has octets, and then a check is
what stops a module that fails it. -/
theorem replaceFile_of_fails {octets : List UInt8} (hencode : content.encode = .ok octets)
    (hfails : checkModule content.shown = .error failed) :
    replaceFile s path content true
      = ((s.makeParent path).1, match (s.makeParent path).2 with
        | .ok _ => .error (.check failed)
        | .error fault => .error (.store fault)) := by
  have hdirectory := @Store.isDirectory_of_makeDirectories s path.parent path.parts.length
  unfold replaceFile Store.makeParent
  generalize s.makeDirectories path.parent path.parts.length = made at hdirectory ⊢
  obtain ⟨t, result⟩ := made
  cases result with
  | error fault => rfl
  | ok _ =>
      obtain ⟨directory, hlocation, -⟩ := Store.isDirectory_iff.mp (hdirectory rfl)
      simp only [hlocation, hencode, hfails, Store.put_put,
        Store.remove_put (t.at?_temporary directory path.name)]
      rfl

/-- What refuses the output before its text is looked at. -/
inductive RefusedUnread (s : Store) (path : Path) (content : RawText) (output : OutputSettings) :
    Fault → Prop
  | mustStay : output.mode = .error → s.pathExists path = true →
      RefusedUnread s path content output (.outputExists path.display)
  | noDirectory {fault : StoreFault} : (s.makeParent path).2 = .error fault →
      RefusedUnread s path content output (.store fault)
  | noOctets {fault : EncodingFault} : content.encode = .error fault →
      RefusedUnread s path content output (.encoding fault)

theorem saveOutput_of_fails (hatomic : output.atomicWrite.truthy = true)
    (hfails : checkModule content.shown = .error failed) :
    (saveOutput s path content (.proper output)).2.result = .error (.check failed)
      ∨ ∃ fault, RefusedUnread s path content output fault
        ∧ (saveOutput s path content (.proper output)).2.result = .error fault := by
  by_cases hclosed : output.mode = .error ∧ s.pathExists path = true
  · rw [saveOutput_closed hclosed]
    exact Or.inr ⟨_, .mustStay hclosed.1 hclosed.2, rfl⟩
  · rw [(saveOutput_open hclosed).2, if_pos hatomic]
    cases hencode : content.encode with
    | error fault =>
        rw [replaceFile_of_encode_error hencode]
        cases hmade : (s.makeParent path).2 with
        | ok _ => exact Or.inr ⟨_, .noOctets hencode, rfl⟩
        | error fault => exact Or.inr ⟨_, .noDirectory hmade, rfl⟩
    | ok octets =>
        rw [replaceFile_of_fails hencode hfails]
        cases hmade : (s.makeParent path).2 with
        | ok _ => exact Or.inl rfl
        | error fault => exact Or.inr ⟨_, .noDirectory hmade, rfl⟩

/-- When the output is refused in one step, all files stay as they are. -/
theorem sameFile_of_refused {fault : Fault} (hatomic : output.atomicWrite.truthy = true)
    (h : (saveOutput s path content (.proper output)).2.result = .error fault)
    (location : Location) : SameFile s (saveOutput s path content (.proper output)).1 location := by
  by_cases hclosed : output.mode = .error ∧ s.pathExists path = true
  · rw [saveOutput_closed hclosed]
    exact fun _ => Iff.rfl
  · obtain ⟨hstore, hresult⟩ := @saveOutput_open s path content output hclosed
    rw [if_pos hatomic] at hstore hresult
    rw [hresult] at h
    rw [hstore]
    exact sameFile_of_replaceFile_error h location

/-- In place, a content is written if and only if it has octets and a file can be put there. -/
theorem overwriteFile_eq_ok_iff : (overwriteFile s path content).2 = .ok () ↔
    (∃ octets, content.encode = .ok octets) ∧ s.Clear path.parent
      ∧ s.at? (resolve s.cwd path) ≠ some .directory
      ∧ ¬Store.OnWay s.cwd path.parent (resolve s.cwd path) := by
  cases hencode : content.encode with
  | ok octets =>
      obtain ⟨text, rfl, -⟩ := RawText.encode_eq_ok_iff.mp hencode
      rw [overwriteFile_ok_iff]
      simp
  | error fault =>
      refine iff_of_false ?_ fun h => by simp at h
      rw [overwriteFile_of_encode_error hencode]
      obtain ⟨t, result⟩ := s.makeParent path
      cases result with
      | error refused => simp
      | ok _ => cases hwrite : t.write path [] <;> simp [hwrite]

/-- Written in one step, the output is saved only when it passes the checks. When it fails one, it
is refused for this, or for something that comes before the checks, and all files stay as they are.
Written in place, the output is saved if and only if it has octets, does not replace what must stay
and its place can be written; no check of its text is made. -/
theorem saveOutput_checked (s : Store) (path : Path) (content : RawText)
    (output : OutputSettings) :
    (output.atomicWrite.truthy = true →
        ((saveOutput s path content (.proper output)).2.result = .ok () →
          checkModule content.shown = .ok ())
        ∧ ∀ failed, checkModule content.shown = .error failed →
          ((saveOutput s path content (.proper output)).2.result = .error (.check failed)
            ∨ ∃ fault, RefusedUnread s path content output fault
              ∧ (saveOutput s path content (.proper output)).2.result = .error fault)
          ∧ ∀ location, SameFile s (saveOutput s path content (.proper output)).1 location)
      ∧ (output.atomicWrite.truthy = false →
        ((saveOutput s path content (.proper output)).2.result = .ok () ↔
          (∃ octets, content.encode = .ok octets)
            ∧ ¬(output.mode = .error ∧ s.pathExists path = true) ∧ s.Clear path.parent
            ∧ s.at? (resolve s.cwd path) ≠ some .directory
            ∧ ¬Store.OnWay s.cwd path.parent (resolve s.cwd path))) := by
  refine ⟨fun hatomic => ⟨fun hok => ?_, fun failed hfails => ⟨?_, ?_⟩⟩, fun hplain => ?_⟩
  · cases hcheck : checkModule content.shown with
    | ok _ => rfl
    | error failed =>
        rcases saveOutput_of_fails hatomic hcheck with hrefused | ⟨fault, -, hrefused⟩
        · cases hok.symm.trans hrefused
        · cases hok.symm.trans hrefused
  · exact saveOutput_of_fails hatomic hfails
  · rcases saveOutput_of_fails hatomic hfails with hrefused | ⟨fault, -, hrefused⟩
    · exact sameFile_of_refused hatomic hrefused
    · exact sameFile_of_refused hatomic hrefused
  · by_cases hclosed : output.mode = .error ∧ s.pathExists path = true
    · rw [saveOutput_closed hclosed]
      exact iff_of_false (by simp) fun h => h.2.1 hclosed
    · rw [(saveOutput_open hclosed).2, if_neg (Bool.eq_false_iff.mp hplain),
        overwriteFile_eq_ok_iff, and_iff_right hclosed]

/-- A module without an export takes the place of one that has passed, once it is written in
place. -/
theorem workshop_overwritten_unchecked :
    checkModule "const b;" = .error .noExports
      ∧ (saveOutput workshop (.ofString "out/a.ts") "const b;"
        (.proper { mode := .force, atomicWrite := .bool false })).2.result = .ok ()
      ∧ (saveOutput workshop (.ofString "out/a.ts") "const b;"
        (.proper { mode := .force, atomicWrite := .bool false })).1.read (.ofString "out/a.ts")
        = .ok (Text.Utf8.encode "const b;") := by
  decide +kernel

theorem workshop_checked :
    (saveOutput workshop (.ofString "out/a.ts") "const b;"
        (.proper { mode := .force })).2.result = .error (.check .noExports)
      ∧ (∀ location, SameFile workshop (saveOutput workshop (.ofString "out/a.ts") "const b;"
        (.proper { mode := .force })).1 location)
      ∧ (saveOutput workshop (.ofString "out/a.ts") "const b;"
        (.proper { atomicWrite := .bool false })).2.result ≠ .ok () := by
  obtain ⟨hchecked, -⟩ :=
    saveOutput_checked workshop (.ofString "out/a.ts") "const b;" { mode := .force }
  obtain ⟨-, hplain⟩ :=
    saveOutput_checked workshop (.ofString "out/a.ts") "const b;" { atomicWrite := .bool false }
  obtain ⟨-, hfails⟩ := hchecked rfl
  obtain ⟨hrefused, hsame⟩ := hfails .noExports (by decide +kernel)
  refine ⟨?_, hsame, fun hok => ((hplain rfl).mp hok).2.1 (by decide +kernel)⟩
  rcases hrefused with hcheck | ⟨fault, hunread, -⟩
  · exact hcheck
  · cases hunread with
    | mustStay hmode => cases hmode
    | noDirectory hmade =>
        have hok : (workshop.makeParent (.ofString "out/a.ts")).2 = .ok () := by decide +kernel
        cases hok.symm.trans hmade
    | noOctets hencode => cases (RawText.encode_ofString _).symm.trans hencode

end SchemaGen.Files

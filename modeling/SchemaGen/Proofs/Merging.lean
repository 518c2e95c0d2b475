import SchemaGen.Files.ModelFiles
import SchemaGen.Proofs.Tables
import SchemaGen.Proofs.Translation

/-!
# What a model is made of

Reading a model looks at the file store in two ways only. It asks which files
the model has (`modelPaths`), and it reads each of them. All the rest is a
matter of what the files hold: their definitions are merged in order, the
later one counting, and the merging cannot fail (`readModel_result`). The
sources that are kept for the reports leave no trace in the model.

A single file is not merged but taken as it is. This makes no difference,
because the reader has set the keys of its object one by one already, and so
they are distinct (`nodup_of_read`).
-/

namespace SchemaGen

/-! ## Objects as they are read -/

namespace Json

variable {fuel : Nat} {entries old : Entries} {s rest : List Char}

theorem scanItems_ne_object {items : List Value} :
    scanItems fuel items s ≠ .ok (.object entries, rest) := by
  intro h
  induction fuel generalizing items s with
  | zero => cases h
  | succ fuel ih =>
      unfold scanItems at h
      obtain ⟨⟨value, afterValue⟩, -, h⟩ := bind_eq_ok h
      dsimp only at h
      split at h
      · cases h
      · exact ih h
      · cases h

theorem scanNumber_ne_object : scanNumber s ≠ .ok (.object entries, rest) := by
  intro h
  unfold scanNumber at h
  dsimp only at h
  split at h
  · cases h
  split at h
  · split at h <;> cases h
  · cases h

theorem nodup_of_scanEntries (hold : (Table.keys old).Nodup)
    (h : scanEntries fuel old s = .ok (.object entries, rest)) : (Table.keys entries).Nodup := by
  induction fuel generalizing old s with
  | zero => cases h
  | succ fuel ih =>
      unfold scanEntries at h
      split at h
      · obtain ⟨⟨name, afterName⟩, -, h⟩ := bind_eq_ok h
        dsimp only at h
        split at h
        · obtain ⟨⟨value, afterValue⟩, -, h⟩ := bind_eq_ok h
          have hset := Table.nodup_keys_set hold (String.ofList name) value
          dsimp only at h
          split at h
          · obtain ⟨heq, -⟩ := Prod.mk.inj (Except.ok.inj h)
            rwa [← Value.object.inj heq]
          · exact ih hset h
          · cases h
        · cases h
      · cases h

theorem nodup_of_scanValue (h : scanValue fuel s = .ok (.object entries, rest)) :
    (Table.keys entries).Nodup := by
  cases fuel with
  | zero => cases h
  | succ fuel =>
      unfold scanValue at h
      split at h
      · obtain ⟨⟨cs, afterText⟩, -, h⟩ := bind_eq_ok h
        cases h
      · split at h
        · cases h
          exact List.nodup_nil
        · refine nodup_of_scanEntries ?_ h
          exact List.nodup_nil
      · split at h
        · cases h
        · exact absurd h scanItems_ne_object
      · split at h
        · rename_i hconstant
          obtain rfl := Except.ok.inj h
          unfold scanConstant at hconstant
          split at hconstant <;> cases hconstant
        · exact absurd h scanNumber_ne_object

/-- The keys of an object that was read are distinct. -/
theorem nodup_of_read {text : List Char} (h : read text = .ok (.object entries)) :
    (Table.keys entries).Nodup := by
  unfold read at h
  split at h
  · cases h
  split at h
  · cases h
  · rename_i hscan
    split at h
    · obtain rfl := Except.ok.inj h
      exact nodup_of_scanValue hscan
    · cases h

end Json

namespace Files

open SchemaGen.Json (Value Entries)

variable {s : Store} {path : Path}

/-! ## The files of a model -/

/-- The paths of the files of a model, in the order in which they are read. -/
def modelPaths (s : Store) (path : Path) : List Path :=
  if s.isFile path then [path] else (modelFileNames s path).map path.child

/-- The values in the files of a model, in order. -/
def modelValues (s : Store) (path : Path) : Except Fault (List Value) :=
  (modelPaths s path).mapM (readValue s)

/-- The definitions in the files of a model, file by file. -/
def modelEntries (s : Store) (path : Path) : Except Fault (List Entries) :=
  (modelPaths s path).mapM (readModelFile s)

theorem readModelFile_eq_ok {entries : Entries} (h : readModelFile s path = .ok entries) :
    readValue s path = .ok (.object entries) ∧ (Table.keys entries).Nodup := by
  obtain ⟨value, hvalue, h⟩ := bind_eq_ok h
  split at h
  · obtain rfl := Except.ok.inj h
    refine ⟨hvalue, ?_⟩
    obtain ⟨content, -, hcontent⟩ := bind_eq_ok hvalue
    obtain ⟨text, -, hread⟩ := bind_eq_ok hcontent
    exact Json.nodup_of_read (mapError_eq_ok hread)
  · cases h

theorem modelValues_of_modelEntries {files : List Entries} (h : modelEntries s path = .ok files) :
    modelValues s path = .ok (files.map Value.object) := by
  unfold modelEntries at h
  unfold modelValues
  generalize modelPaths s path = paths at h ⊢
  induction paths generalizing files with
  | nil =>
      obtain rfl := Except.ok.inj h
      rfl
  | cons first paths ih =>
      rw [List.mapM_cons] at h ⊢
      obtain ⟨entries, hfirst, h⟩ := bind_eq_ok h
      obtain ⟨others, hothers, h⟩ := bind_eq_ok h
      obtain rfl := Except.ok.inj h
      rw [(readModelFile_eq_ok hfirst).1, ih hothers]
      rfl

/-! ## Merging -/

theorem Merged.addFile_result (m : Merged) (file : String) (entries : Entries) :
    ∃ sources, (m.addFile file entries).result
      = .ok ⟨Table.setAll m.entries entries, sources⟩ := by
  induction entries generalizing m with
  | nil => exact ⟨m.sources, rfl⟩
  | cons e entries ih =>
      obtain ⟨sources, hrest⟩ := ih (m.add file e.1 e.2)
      exact ⟨sources, (Traced.bind_ok rfl _).trans hrest⟩

/-- Reading the files of a directory into what was merged so far. -/
theorem foldlM_mergeFile_result (s : Store) (path : Path) (names : List String) (m : Merged) :
    (names.foldlM (mergeFile s path) m).result.map Merged.entries
      = ((names.map path.child).mapM (readModelFile s)).map
          fun files => files.foldl Table.setAll m.entries := by
  induction names generalizing m with
  | nil => rfl
  | cons name names ih =>
      rw [List.foldlM_cons, List.map_cons, List.mapM_cons]
      cases hfile : readModelFile s (path.child name) with
      | error fault =>
          have hmerge : (mergeFile s path m name).result = .error fault := by
            simp only [mergeFile, hfile]
            rfl
          rw [Traced.bind_error hmerge]
          rfl
      | ok entries =>
          obtain ⟨sources, hadd⟩ := m.addFile_result name entries
          have hmerge : (mergeFile s path m name).result
              = .ok ⟨Table.setAll m.entries entries, sources⟩ := by
            simp only [mergeFile, hfile]
            refine (Traced.lift_ok rfl _).trans ?_
            exact (Traced.bind_ok hadd _).trans rfl
          rw [Traced.bind_ok hmerge, ih]
          cases (names.map path.child).mapM (readModelFile s) <;> rfl

/-- A model is the merger of the definitions in its files. -/
theorem readModel_result (s : Store) (path : Path) :
    (readModel s path).result
      = (modelEntries s path).map fun files => .object (files.foldl Table.setAll []) := by
  unfold readModel modelEntries modelPaths
  split
  · rw [List.mapM_cons]
    cases hfile : readModelFile s path with
    | error fault => rfl
    | ok entries =>
        have hself : Table.setAll [] entries = entries :=
          Table.setAll_of_nodup (readModelFile_eq_ok hfile).2
        show Except.ok (Value.object entries) = .ok (.object (Table.setAll [] entries))
        rw [hself]
  · have hmerged := foldlM_mergeFile_result s path (modelFileNames s path) Merged.empty
    have hobject : ∀ merged : Traced Merged,
        (merged >>= fun m => (pure (.object m.entries) : Traced Value)).result
          = (merged.result.map Merged.entries).map Value.object := by
      intro merged
      rw [Traced.bind_result]
      cases merged.result <;> rfl
    refine (hobject _).trans ?_
    rw [hmerged]
    cases ((modelFileNames s path).map path.child).mapM (readModelFile s) <;> rfl

end Files

end SchemaGen

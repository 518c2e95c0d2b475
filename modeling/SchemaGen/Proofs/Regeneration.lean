import SchemaGen.Proofs.Relocation
import SchemaGen.Proofs.Traversal

/-!
# Generating again changes nothing

When a run that may replace its output has succeeded, the same run again
succeeds too and leaves all files and directories as they are (`run_again`).
The second run starts from the store that the first one left, so there are two
parts to this.

What is read must be as before. The first run has put a file at the place of
the output and made directories on the way there. As long as the settings and
the model lie elsewhere, and nothing on the way to the output counts as a file
of the model, none of this is seen by the second run
(`Beside.modelEntries_of_puts`). Hence it generates the same text.

What is written is there already. Saving a text where it was saved before
makes no directory and puts what is there, so the store holds at every place
what it held (`saveOutput_again`).
-/

namespace SchemaGen

namespace Files

open SchemaGen.Json (Value Entries)
open Store (Puts)

variable {s s' : Store} {path other : Path} {location : Location}

/-! ## Saving again -/

theorem makeParent_of_locate (h : s.locate path = .ok location) (hne : path.parts ≠ []) :
    s.makeParent path = (s, .ok ()) :=
  Store.makeDirectories_of_isDirectory (Store.isDirectory_parent h hne) _

/-- Putting at a place what is there changes nothing. -/
theorem at?_put_same {node : Node} {l : Location} (hother : s.at? location ≠ some .directory)
    (hnode : s.at? location = some node) : (s.put location node).at? l = s.at? l := by
  rw [Store.at?_put (Store.ne_root_of_at? hother)]
  split
  · rename_i heq
    rw [heq, hnode]
  · rfl

theorem overwriteFile_again {content : String} (hne : path.parts ≠ [])
    (hlocation : s.locate path = .ok location)
    (hfile : s.at? location = some (.file (Text.Utf8.encode content))) :
    (overwriteFile s path content).2 = .ok ()
      ∧ ∀ l, (overwriteFile s path content).1.at? l = s.at? l := by
  have hother : s.at? location ≠ some .directory := by simp [hfile]
  have hwrite : s.write path (Text.Utf8.encode content) = .ok _ :=
    Store.write_eq_ok_iff.mpr ⟨location, hlocation, hother, rfl⟩
  simp only [overwriteFile_ofString, makeParent_of_locate hlocation hne, hwrite]
  exact ⟨trivial, fun l => at?_put_same hother hfile⟩

theorem replaceFile_again {content : String} (hname : path.endsInName = true)
    (hcheck : checkModule content = .ok ()) (hlocation : s.locate path = .ok location)
    (hfile : s.at? location = some (.file (Text.Utf8.encode content))) :
    (replaceFile s path content true).2 = .ok ()
      ∧ ∀ l, (replaceFile s path content true).1.at? l = s.at? l := by
  have hne : path.parts ≠ [] := by
    intro hnil
    simp [Path.endsInName, hnil] at hname
  have hpasses : Passes content true := fun _ => by rwa [Text.RawText.shown_ofString]
  rw [replaceFile_eq_overwriteFile hname hpasses]
  exact overwriteFile_again hne hlocation hfile

/-- Saving a text a second time succeeds and changes nothing. -/
theorem saveOutput_again {content : String} {output : OutputSettings}
    (hmode : output.mode = .force) (hne : path.parts ≠ [])
    (h : (saveOutput s path content (.proper output)).2.result = .ok ())
    (hstore : s' = (saveOutput s path content (.proper output)).1) :
    (saveOutput s' path content (.proper output)).2.result = .ok ()
      ∧ ∀ l, (saveOutput s' path content (.proper output)).1.at? l = s'.at? l := by
  obtain ⟨location, hlocation, hfile, -⟩ := (saveOutput_puts h).writes
  rw [← hstore] at hlocation hfile
  have hopen : ∀ t : Store, ¬(output.mode = .error ∧ t.pathExists path = true) := by
    simp [hmode]
  rw [(saveOutput_open (hopen s)).2] at h
  obtain ⟨hsame, hagain⟩ := @saveOutput_open s' path content output (hopen s')
  rw [hagain, hsame]
  split at h
  · rename_i hatomic
    obtain ⟨hpasses, hname, -⟩ := replaceFile_ok_iff.mp h
    rw [if_pos hatomic]
    rw [Passes, Text.RawText.shown_ofString] at hpasses
    exact replaceFile_again hname (hpasses rfl) hlocation hfile
  · rename_i hplain
    rw [if_neg hplain]
    exact overwriteFile_again hne hlocation hfile

/-! ## Reading beside the output -/

theorem Store.Puts.read_other {content new : List UInt8} (h : Puts path new s s')
    (hread : s.read other = .ok content)
    (hne : resolve s.cwd other ≠ resolve s.cwd path) : s'.read other = .ok content := by
  obtain ⟨location, hlocation, hfile⟩ := Store.read_eq_ok_iff.mp hread
  obtain ⟨place, hplace, -, hrest⟩ := h.writes
  have hother : location ≠ place := by
    rw [Store.eq_resolve_of_locate hlocation, Store.eq_resolve_of_locate hplace, h.keeps.cwd]
    exact hne
  refine Store.read_eq_ok_iff.mpr ⟨location, h.keeps.locate hlocation, ?_⟩
  exact (hrest location hother).file_iff.mpr hfile

theorem Store.Puts.pathExists_other {content : List UInt8} (h : Puts path content s s')
    (hexists : s.pathExists other = true) : s'.pathExists other = true := by
  unfold Store.pathExists Store.node? at hexists ⊢
  split at hexists
  · rename_i location hlocation
    obtain ⟨place, -, hfile, hrest⟩ := h.writes
    rw [h.keeps.locate hlocation]
    dsimp only
    by_cases hne : location = place
    · rw [hne, hfile]
      rfl
    · rcases hrest location hne with hsame | ⟨-, hmade, -⟩
      · rwa [hsame]
      · rw [hmade]
        rfl
  · cases hexists

/-! ## Entries of directories -/

/-- The name by which a place is an entry of a directory. -/
def entryName? (directory place : Location) : Option String :=
  if place ≠ [] ∧ place.dropLast = directory then place.getLast? else none

theorem entryName?_eq_some_iff {directory place : Location} {name : String} :
    entryName? directory place = some name ↔ place = directory ++ [name] := by
  rcases List.eq_nil_or_concat place with rfl | ⟨front, last, rfl⟩
  · simp [entryName?]
  · rw [entryName?, List.concat_eq_append, List.dropLast_concat, List.getLast?_concat]
    constructor
    · intro h
      split at h
      · rename_i hfront
        rw [hfront.2, Option.some.inj h]
      · cases h
    · intro h
      obtain ⟨rfl, hlast⟩ := List.append_inj' h rfl
      rw [if_pos ⟨by simp, rfl⟩, (List.cons.inj hlast).1]

theorem entryNames_eq (s : Store) (directory : Location) :
    s.entryNames directory = (s.nodes.map Prod.fst).filterMap (entryName? directory) := by
  rw [List.filterMap_map]
  rfl

theorem mem_entryNames {name : String} :
    name ∈ s.entryNames location ↔ (s.at? (location ++ [name])).isSome = true := by
  rw [entryNames_eq, Store.at?_eq_find? (by simp), Option.isSome_map, List.find?_isSome,
    List.mem_filterMap]
  simp only [entryName?_eq_some_iff, exists_eq_right, List.mem_map, decide_eq_true_eq]

theorem nodup_entryNames (s : Store) (directory : Location) :
    (s.entryNames directory).Nodup := by
  rw [entryNames_eq]
  refine List.Nodup.filterMap (fun place place' name h h' => ?_) s.distinct
  rw [entryName?_eq_some_iff.mp h, entryName?_eq_some_iff.mp h']

theorem isModelFileName_of_mem {name : String} (h : name ∈ modelFileNames s path) :
    isModelFileName name = true := by
  unfold modelFileNames at h
  split at h
  · cases h
  split at h
  · rw [List.mem_mergeSort, List.mem_filter] at h
    exact h.2
  · cases h

/-- Which model files a directory has is a matter of the entries with such names. -/
theorem modelFileNames_eq (hlocation : s.locate path = .ok location)
    (hlocation' : s'.locate path = .ok location)
    (hdirectory : s.isDirectory path = s'.isDirectory path)
    (hentries : ∀ name, isModelFileName name = true →
      (s'.at? (location ++ [name])).isSome = (s.at? (location ++ [name])).isSome) :
    modelFileNames s' path = modelFileNames s path := by
  have hperm : ((s'.entryNames location).filter isModelFileName).Perm
      ((s.entryNames location).filter isModelFileName) := by
    refine (List.perm_ext_iff_of_nodup ((nodup_entryNames s' location).filter _)
      ((nodup_entryNames s location).filter _)).mpr fun name => ?_
    rw [List.mem_filter, List.mem_filter, mem_entryNames, mem_entryNames]
    refine and_congr_left fun hname => ?_
    rw [hentries name hname]
  simp only [modelFileNames, hlocation, hlocation', hdirectory]
  rw [Hierarchy.sorted_eq_of_perm hperm]

/-! ## The model beside the output -/

theorem readValue_of_read {value : Value}
    (hread : ∀ content, s.read path = .ok content → s'.read path = .ok content)
    (h : readValue s path = .ok value) : readValue s' path = .ok value := by
  unfold readValue at h ⊢
  obtain ⟨content, hcontent, h⟩ := bind_eq_ok h
  rw [hread content (mapError_eq_ok hcontent)]
  exact h

theorem readModelFile_of_read {entries : Entries}
    (hread : ∀ content, s.read path = .ok content → s'.read path = .ok content)
    (h : readModelFile s path = .ok entries) : readModelFile s' path = .ok entries := by
  unfold readModelFile at h ⊢
  obtain ⟨value, hvalue, h⟩ := bind_eq_ok h
  rw [readValue_of_read hread hvalue]
  exact h

theorem isFile_iff : s.isFile path = true ↔ ∃ content, s.read path = .ok content := by
  simp only [Store.read_eq_ok_iff, Store.isFile, Store.node?]
  cases hlocation : s.locate path with
  | error fault => simp
  | ok location =>
      cases hat : s.at? location with
      | none => simp [hat]
      | some node => cases node <;> simp [hat]

theorem isDirectory_of_not_isFile (hexists : s.pathExists path = true)
    (hfile : ¬s.isFile path = true) : s.isDirectory path = true := by
  unfold Store.pathExists at hexists
  unfold Store.isFile at hfile
  unfold Store.isDirectory
  cases hnode : s.node? path with
  | none =>
      rw [hnode] at hexists
      cases hexists
  | some node =>
      cases node with
      | file content =>
          rw [hnode] at hfile
          exact absurd rfl hfile
      | directory => simp

theorem not_isFile_of_isDirectory (h : s.isDirectory path = true) : ¬s.isFile path = true := by
  unfold Store.isDirectory at h
  unfold Store.isFile
  rw [of_decide_eq_true h]
  simp

section Beside

variable {place output : Location} {new : List UInt8}

/-- What is asked of a model that the output is not mistaken for a part of it: the output is not
the model file, and it is neither a model file of the directory nor below one. -/
structure Beside (s : Store) (place output : Location) : Prop where
  properPlace : Proper place
  properOutput : Proper output
  file : s.isFile (Path.ofLocation place) = true → place ≠ output
  entries : s.isDirectory (Path.ofLocation place) = true →
    ∀ name, isModelFileName name = true → ¬place ++ [name] <+: output

theorem proper_modelFile {name : String} (hplace : Proper place)
    (hname : isModelFileName name = true) : ".." ∉ place ++ [name] := by
  intro hmem
  rcases List.mem_append.mp hmem with hmem | hmem
  · exact hplace.dots_not_mem hmem
  · rw [← List.mem_singleton.mp hmem] at hname
    exact absurd hname (by decide)

theorem Beside.modelFileNames_eq (hbeside : Beside s place output)
    (hdirectory : s.isDirectory (Path.ofLocation place) = true)
    (h : Puts (Path.ofLocation output) new s s') :
    modelFileNames s' (Path.ofLocation place) = modelFileNames s (Path.ofLocation place) := by
  obtain ⟨location, hlocation, hat⟩ := Store.isDirectory_iff.mp hdirectory
  have hsame : location = place := by
    rw [Store.eq_resolve_of_locate hlocation,
      Store.resolve_ofLocation hbeside.properPlace.dots_not_mem]
  have hlocation' := h.keeps.locate hlocation
  have hdirectory' : s'.isDirectory (Path.ofLocation place) = true :=
    Store.isDirectory_iff.mpr ⟨location, hlocation', h.keeps.directory location hat⟩
  refine Files.modelFileNames_eq hlocation hlocation' (hdirectory.trans hdirectory'.symm) ?_
  intro name hname
  rw [hsame]
  have hnot := hbeside.entries hdirectory name hname
  obtain ⟨target, htarget, -, hrest⟩ := h.writes
  have hplace : target = output := by
    rw [Store.eq_resolve_of_locate htarget,
      Store.resolve_ofLocation hbeside.properOutput.dots_not_mem]
  have hother : place ++ [name] ≠ target := by
    intro heq
    rw [hplace] at heq
    exact hnot (heq ▸ List.prefix_rfl)
  rcases hrest _ hother with hkept | ⟨-, -, hway⟩
  · rw [hkept]
  · have hparent : ".." ∉ output.dropLast := fun hmem =>
      hbeside.properOutput.dots_not_mem (List.dropLast_subset _ hmem)
    have hfront := (Store.onWay_ofLocation_iff hparent).mp hway
    exact absurd (hfront.trans (List.dropLast_prefix _)) hnot

theorem Beside.mem_modelPaths (hbeside : Beside s place output)
    (hexists : s.pathExists (Path.ofLocation place) = true) {file : Path}
    (hfile : file ∈ modelPaths s (Path.ofLocation place)) :
    ∃ location, file = Path.ofLocation location ∧ ".." ∉ location ∧ location ≠ output := by
  unfold modelPaths at hfile
  split at hfile
  · rename_i hplace
    exact ⟨place, List.mem_singleton.mp hfile, hbeside.properPlace.dots_not_mem,
      hbeside.file hplace⟩
  · rename_i hnot
    obtain ⟨name, hmem, rfl⟩ := List.mem_map.mp hfile
    have hname : isModelFileName name = true := isModelFileName_of_mem hmem
    have hentry := hbeside.entries (isDirectory_of_not_isFile hexists hnot) name hname
    refine ⟨place ++ [name], rfl, proper_modelFile hbeside.properPlace hname, ?_⟩
    rintro rfl
    exact hentry List.prefix_rfl

theorem Beside.read_of_puts (hbeside : Beside s place output)
    (hexists : s.pathExists (Path.ofLocation place) = true)
    (h : Puts (Path.ofLocation output) new s s') {file : Path} {content : List UInt8}
    (hfile : file ∈ modelPaths s (Path.ofLocation place)) (hread : s.read file = .ok content) :
    s'.read file = .ok content := by
  obtain ⟨location, rfl, hdots, hother⟩ := hbeside.mem_modelPaths hexists hfile
  refine h.read_other hread ?_
  rwa [Store.resolve_ofLocation hdots,
    Store.resolve_ofLocation hbeside.properOutput.dots_not_mem]

theorem Beside.modelPaths_eq (hbeside : Beside s place output)
    (hexists : s.pathExists (Path.ofLocation place) = true)
    (h : Puts (Path.ofLocation output) new s s') :
    modelPaths s' (Path.ofLocation place) = modelPaths s (Path.ofLocation place) := by
  by_cases hfile : s.isFile (Path.ofLocation place) = true
  · obtain ⟨content, hread⟩ := isFile_iff.mp hfile
    have hmem : Path.ofLocation place ∈ modelPaths s (Path.ofLocation place) := by
      simp [modelPaths, hfile]
    have hfile' := isFile_iff.mpr ⟨content, hbeside.read_of_puts hexists h hmem hread⟩
    rw [modelPaths, modelPaths, if_pos hfile, if_pos hfile']
  · have hdirectory := isDirectory_of_not_isFile hexists hfile
    obtain ⟨location, hlocation, hat⟩ := Store.isDirectory_iff.mp hdirectory
    have hdirectory' := Store.isDirectory_iff.mpr
      ⟨location, h.keeps.locate hlocation, h.keeps.directory location hat⟩
    rw [modelPaths, modelPaths, if_neg hfile, if_neg (not_isFile_of_isDirectory hdirectory'),
      hbeside.modelFileNames_eq hdirectory h]

/-- The files of a model are read as before when the output was put beside them. -/
theorem Beside.modelEntries_of_puts {files : List Entries} (hbeside : Beside s place output)
    (hexists : s.pathExists (Path.ofLocation place) = true)
    (h : Puts (Path.ofLocation output) new s s')
    (hread : modelEntries s (Path.ofLocation place) = .ok files) :
    modelEntries s' (Path.ofLocation place) = .ok files := by
  unfold modelEntries
  rw [hbeside.modelPaths_eq hexists h]
  refine mapM_of_mapM hread fun file hfile entries => readModelFile_of_read fun content => ?_
  exact hbeside.read_of_puts hexists h hfile

end Beside

end Files

namespace Command

open SchemaGen.Files (Store Path Location Proper)
open SchemaGen.Files.Store (Puts)

variable {s s' : Store} {r : Request}

/-! ## The same request again -/

theorem override_force {base settings : Settings} (hforce : r.force = true)
    (h : r.override base = .ok settings) :
    ∃ output, settings.output = .proper output ∧ output.mode = .force := by
  unfold Request.override at h
  dsimp only at h
  rw [if_pos hforce] at h
  obtain ⟨forced, hforced, h⟩ := bind_eq_ok h
  obtain ⟨output, -, hforced⟩ := bind_eq_ok hforced
  obtain rfl := Except.ok.inj hforced
  refine ⟨{ output with mode := .force }, ?_, rfl⟩
  split at h
  · obtain ⟨formatted, hformatted, h⟩ := bind_eq_ok h
    obtain ⟨formatter, -, hformatted⟩ := bind_eq_ok hformatted
    obtain rfl := Except.ok.inj hformatted
    rw [← Except.ok.inj h]
    cases r.siblingOrder <;> rfl
  · rw [← Except.ok.inj h]
    cases r.siblingOrder <;> rfl

/-- No file is put at the root. -/
theorem parts_ne_nil_of_puts {output : Location} {content : List UInt8}
    (h : Puts (Path.ofLocation output) content s s') : (Path.ofLocation output).parts ≠ [] := by
  intro hnil
  obtain ⟨t, location, -, hlocation, hother, -⟩ := h
  have hroot : location = [] := by
    rw [Files.Store.eq_resolve_of_locate hlocation, Files.resolve, hnil]
    rfl
  exact Files.Store.ne_root_of_at? hother hroot

theorem understand_of_puts {words : List String} {path : Path} {content : List UInt8}
    (h : Puts path content s s') (hwords : understand s words = .request r) :
    understand s' words = .request r := by
  obtain ⟨given, order, hgiven, hhelp, horder, hrequest, hcount, hconfig, hmodel⟩ :=
    understand_eq_request_iff.mp hwords
  have hsame : given.request s' order = given.request s order := by
    unfold Given.request placeOf
    rw [h.keeps.cwd]
  have hpresent : ∀ place, presentOrAbsent s place = true → presentOrAbsent s' place = true := by
    intro place hplace
    cases place with
    | none => rfl
    | some location => exact h.pathExists_other hplace
  exact understand_eq_request_iff.mpr ⟨given, order, hgiven, hhelp, horder, hsame.trans hrequest,
    hcount, hpresent _ hconfig, hpresent _ hmodel⟩

theorem effectiveSettings_of_puts {output : Location} {content : List UInt8} {settings : Settings}
    (h : Puts (Path.ofLocation output) content s s') (hplaced : r.Placed)
    (houtput : Proper output) (hconfig : r.config ≠ some output)
    (hsettings : r.effectiveSettings s = .ok settings) :
    r.effectiveSettings s' = .ok settings := by
  unfold Request.effectiveSettings at hsettings ⊢
  cases hplace : r.config with
  | none =>
      rw [hplace] at hsettings
      exact hsettings
  | some place =>
      rw [hplace] at hsettings hconfig
      have hproper := hplaced.config place hplace
      obtain ⟨base, hbase, hoverride⟩ := bind_eq_ok hsettings
      obtain ⟨value, hvalue, -⟩ := bind_eq_ok hbase
      have hother : Files.resolve s.cwd (Path.ofLocation place)
          ≠ Files.resolve s.cwd (Path.ofLocation output) := by
        rw [Files.Store.resolve_ofLocation hproper.dots_not_mem,
          Files.Store.resolve_ofLocation houtput.dots_not_mem]
        exact fun heq => hconfig (congrArg some heq)
      have hvalue' : Files.readValue s' (Path.ofLocation place) = .ok value :=
        Files.readValue_of_read (fun _ hread => h.read_other hread hother) hvalue
      dsimp only
      rw [readSettings_congr (hvalue'.trans hvalue.symm)]
      exact hsettings

theorem generate_of_puts {output : Location} {content : List UInt8} {settings : Settings}
    {machine machine' : Machine} {text : String}
    (h : Puts (Path.ofLocation output) content s s')
    (hbeside : ∀ place, r.model = some place → Files.Beside s place output)
    (hexists : presentOrAbsent s r.model = true)
    (hmachine : machine.installed = false) (hmachine' : machine'.installed = false)
    (htext : (r.generate s settings machine).result = .ok text) :
    (r.generate s' settings machine').result = .ok text := by
  obtain ⟨place, model, hplace, hread, hgenerated⟩ := Request.generate_eq_ok htext
  rw [hplace] at hexists
  rw [Files.readModel_result] at hread
  obtain ⟨files, hfiles, rfl⟩ := map_eq_ok hread
  have hfiles' := (hbeside place hplace).modelEntries_of_puts hexists h hfiles
  have hread' : (Files.readModel s' (Path.ofLocation place)).result
      = .ok (.object (files.foldl Table.setAll [])) := by
    rw [Files.readModel_result, hfiles']
    rfl
  refine Request.generate_ok hplace hread' ?_
  rw [ModuleText.generate_uninstalled hmachine' hmachine]
  exact hgenerated

/-- A run that may replace its output and that succeeds can be repeated. The second run succeeds
too, and it leaves the store as the first one did, unless the output of the first run is the
settings file or is read as a part of the model. -/
theorem run_again {machine machine' : Machine} {words : List String} {output : Location}
    (hcwd : Proper s.cwd) (hwords : understand s words = .request r) (hforce : r.force = true)
    (houtput : r.output = some output) (hconfig : r.config ≠ some output)
    (hmodel : ∀ place, r.model = some place → s.isFile (Path.ofLocation place) = true →
      place ≠ output)
    (hentries : ∀ place, r.model = some place → s.isDirectory (Path.ofLocation place) = true →
      ∀ name, Files.isModelFileName name = true → ¬place ++ [name] <+: output)
    (hmachine : machine.installed = false) (hmachine' : machine'.installed = false)
    (hexit : (run s machine words).ending.exitCode = 0) :
    (run (run s machine words).store machine' words).ending.exitCode = 0
      ∧ ∀ location, (run (run s machine words).store machine' words).store.at? location
        = (run s machine words).store.at? location := by
  have hplaced := placed_of_understand hcwd hwords
  have hproper := hplaced.output output houtput
  have hrun : run s machine words = r.run s machine := by rw [run, hwords]
  rw [hrun] at hexit ⊢
  obtain ⟨output', settings, text, houtput', hsettings, htext, hsaved, hstore⟩ :=
    Request.run_finished hexit
  obtain rfl := Option.some.inj (houtput.symm.trans houtput')
  generalize (r.run s machine).store = after at hstore ⊢
  have hputs := Files.saveOutput_puts hsaved
  rw [← hstore] at hputs
  have hbeside : ∀ place, r.model = some place → Files.Beside s place output :=
    fun place hplace => ⟨hplaced.model place hplace, hproper, hmodel place hplace,
      hentries place hplace⟩
  obtain ⟨-, -, -, -, -, -, -, -, hexists⟩ := understand_eq_request_iff.mp hwords
  have hsettings' := effectiveSettings_of_puts hputs hplaced hproper hconfig hsettings
  have htext' := generate_of_puts hputs hbeside hexists hmachine hmachine' htext
  obtain ⟨hstore', hending'⟩ := Request.run_of_generated hsettings' htext' houtput
  -- the second run comes to saving the same text once more
  obtain ⟨base, -, hoverride⟩ := bind_eq_ok hsettings
  obtain ⟨outputSettings, hsection, hmode⟩ := override_force hforce hoverride
  rw [hsection] at hsaved hstore hstore' hending'
  obtain ⟨hagain, hsame⟩ := Files.saveOutput_again hmode (parts_ne_nil_of_puts hputs) hsaved hstore
  rw [hagain] at hending'
  have hrun' : run after machine' words = r.run after machine' := by
    rw [run, understand_of_puts hputs hwords]
  rw [hrun', hending', hstore']
  exact ⟨rfl, hsame⟩

theorem crate_again :
    let words := ["--force", "-c", "c.json", "m.json", "m.json/new/o.ts"]
    let after := (run crate Machine.bare words).store
    (run after Machine.bare words).ending.exitCode = 0
      ∧ ∀ location, (run after Machine.bare words).store.at? location = after.at? location := by
  have hwords : understand crate ["--force", "-c", "c.json", "m.json", "m.json/new/o.ts"]
      = .request
      { config := some ["barn", "c.json"], force := true, model := some ["barn", "m.json"],
        output := some ["barn", "m.json", "new", "o.ts"] } := by
    decide +kernel
  have hentries : ∀ name, Files.isModelFileName name = true →
      ¬["barn", "m.json", name] <+: ["barn", "m.json", "new", "o.ts"] := by
    intro name hname hfront
    obtain rfl : name = "new" := by simpa [List.cons_prefix_cons] using hfront
    exact absurd hname (by decide)
  refine run_again (by decide) hwords rfl rfl (by decide) ?_ ?_
    (show Machine.bare.installed = false from rfl) rfl (by decide +kernel)
  · rintro place hplace -
    obtain rfl := Option.some.inj hplace
    decide
  · rintro place hplace -
    obtain rfl := Option.some.inj hplace
    exact hentries

end Command

end SchemaGen

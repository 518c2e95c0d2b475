import SchemaGen.Artifacts
import SchemaGen.Proofs.Regeneration

/-!
# Types that are defined again

The files of a directory are merged in the order of their names, and any
number of them may define a type. Its first definition settles where it
stands, its last one what it is, and in between every file that takes over
is reported together with the one before it. `Merges` says all of this.

What was merged so far and from where is carried through the files by
`MergedFrom`: the entries are those of the files in a row, set one by one,
and the source of a type is the last file that defines it. A file changes
this in one way only (`mergeFile_from`), since the types within a file are
distinct. The rest follows from the list of files alone, with `reports` as
what is said about each file after those before it. For a single type, the
reports are the pairs of neighbours among its definers (`takeovers_reports`).

Only the model files of a directory are looked at. Two stores that have the
same there are read in the same way, with the same reports
(`readModel_congr`), in whatever order they list their entries.
-/

namespace SchemaGen

namespace Files

open SchemaGen.Json (Value Entries)

variable {s s' : Store} {path : Path} {location : Location} {typeName : String}
variable {before files : List (String × Entries)} {file : String × Entries}

/-! ## What is said of redefinitions -/

/-- The names of the files that define a type, in order. -/
def definers (files : List (String × Entries)) (typeName : String) : List String :=
  (files.filter fun file => typeName ∈ Table.keys file.2).map Prod.fst

/-- The types of a file that the files before it define too, each with its last definer there. -/
def takeovers (before : List (String × Entries)) (file : String × Entries) : List Event :=
  (Table.keys file.2).flatMap fun typeName =>
    (definers before typeName).getLast?.toList.map fun first => .redefined typeName first file.1

/-- What is reported while files are merged into what comes from those before them. -/
def reports (directory : Path) (before : List (String × Entries)) :
    List (String × Entries) → List Event
  | [] => []
  | file :: files => takeovers before file
      ++ .loaded (directory.child file.1).display :: reports directory (before ++ [file]) files

/-- The files that a redefinition of a type is about. -/
def takeover? (typeName : String) : Event → Option (String × String)
  | .redefined name first second => if name = typeName then some (first, second) else none
  | _ => none

theorem definers_concat (before : List (String × Entries)) (file : String × Entries)
    (typeName : String) :
    definers (before ++ [file]) typeName
      = definers before typeName ++ if typeName ∈ Table.keys file.2 then [file.1] else [] := by
  rw [definers, List.filter_append, List.map_append]
  split <;> simp_all [definers]

theorem definers_cons (file : String × Entries) (files : List (String × Entries))
    (typeName : String) :
    definers (file :: files) typeName
      = (if typeName ∈ Table.keys file.2 then [file.1] else []) ++ definers files typeName := by
  unfold definers
  split <;> simp_all

/-- A file takes over a type once, from the last of its definers. -/
theorem filterMap_takeovers (hdistinct : (Table.keys file.2).Nodup) :
    (takeovers before file).filterMap (takeover? typeName)
      = if typeName ∈ Table.keys file.2 then
          (definers before typeName).getLast?.toList.map fun first => (first, file.1)
        else [] := by
  have hone : ∀ name, ((definers before name).getLast?.toList.map fun first =>
        Event.redefined name first file.1).filterMap (takeover? typeName)
      = if name = typeName then
          (definers before typeName).getLast?.toList.map fun first => (first, file.1)
        else [] := by
    intro name
    split
    · rename_i heq
      subst heq
      cases (definers before name).getLast? <;> simp [takeover?]
    · rename_i hne
      cases (definers before name).getLast? <;> simp [takeover?, hne]
  rw [takeovers, List.filterMap_flatMap]
  simp only [hone]
  generalize Table.keys file.2 = names at hdistinct ⊢
  induction names with
  | nil => rfl
  | cons name names ih =>
      obtain ⟨hfresh, hrest⟩ := List.nodup_cons.mp hdistinct
      rw [List.flatMap_cons, ih hrest]
      by_cases heq : name = typeName
      · subst heq
        simp [hfresh]
      · simp [heq, Ne.symm heq]

/-- Every definer of a type takes over from the one before it. -/
theorem takeovers_reports (directory : Path)
    (hdistinct : ∀ file ∈ files, (Table.keys file.2).Nodup)
    (before : List (String × Entries)) :
    (reports directory before files).filterMap (takeover? typeName)
      = ((definers before typeName).getLast?.toList ++ definers files typeName).zip
          ((definers before typeName).getLast?.toList ++ definers files typeName).tail := by
  induction files generalizing before with
  | nil => cases h : (definers before typeName).getLast? <;> simp [reports, definers]
  | cons file files ih =>
      have hfile := hdistinct file (List.mem_cons_self ..)
      have hfiles := fun other hmem => hdistinct other (List.mem_cons_of_mem file hmem)
      have hloaded : takeover? typeName (.loaded (directory.child file.1).display) = none := rfl
      rw [reports, List.filterMap_append, List.filterMap_cons_none hloaded,
        filterMap_takeovers hfile, ih hfiles, definers_concat, definers_cons]
      split
      · rw [List.getLast?_concat]
        cases (definers before typeName).getLast? <;> rfl
      · simp

theorem level_of_mem_reports {directory : Path} {event : Event}
    (hmem : event ∈ reports directory before files) (hlevel : event.level = .warning) :
    ∃ typeName first second, event = .redefined typeName first second := by
  induction files generalizing before with
  | nil => cases hmem
  | cons file files ih =>
      rcases List.mem_append.mp hmem with hmem | hmem
      · obtain ⟨name, -, hmem⟩ := List.mem_flatMap.mp hmem
        obtain ⟨first, -, rfl⟩ := List.mem_map.mp hmem
        exact ⟨name, first, file.1, rfl⟩
      rcases List.mem_cons.mp hmem with rfl | hmem
      · cases hlevel
      · exact ih hmem

/-! ## Merging file by file -/

/-- What was merged from files: their entries in a row, set one by one, and for every type the
last file that defines it. -/
structure MergedFrom (files : List (String × Entries)) (m : Merged) : Prop where
  entries : m.entries = Table.setAll [] (files.flatMap Prod.snd)
  sources : ∀ typeName, Table.get? m.sources typeName = (definers files typeName).getLast?

theorem Merged.addFile_eq (m : Merged) (file : String) {entries : Entries}
    (hdistinct : (Table.keys entries).Nodup) :
    m.addFile file entries = ⟨(Table.keys entries).flatMap (m.redefinition file),
      .ok ⟨Table.setAll m.entries entries,
        Table.setAll m.sources ((Table.keys entries).map fun typeName => (typeName, file))⟩⟩ := by
  induction entries generalizing m with
  | nil => rfl
  | cons e entries ih =>
      obtain ⟨hfresh, hrest⟩ := List.nodup_cons.mp hdistinct
      have hsame : (Table.keys entries).flatMap ((m.add file e.1 e.2).redefinition file)
          = (Table.keys entries).flatMap (m.redefinition file) := by
        refine List.flatMap_congr fun name hname => ?_
        have hne : e.1 ≠ name := by
          rintro rfl
          exact hfresh hname
        rw [redefinition, redefinition, add, Table.get?_set, if_neg hne]
      have hstep : m.addFile file (e :: entries)
          = (⟨m.redefinition file e.1, .ok ()⟩ : Traced Unit) >>= fun _ =>
            (m.add file e.1 e.2).addFile file entries := rfl
      rw [hstep, ih _ hrest, hsame]
      rfl

/-- One more file is merged in. -/
theorem mergeFile_from {m : Merged} (hm : MergedFrom before m)
    (hfile : readModelFile s (path.child file.1) = .ok file.2) :
    ∃ m', mergeFile s path m file.1
        = ⟨takeovers before file ++ [.loaded (path.child file.1).display], .ok m'⟩
      ∧ MergedFrom (before ++ [file]) m' := by
  have hdistinct := (readModelFile_eq_ok hfile).2
  have htakeovers : (Table.keys file.2).flatMap (m.redefinition file.1)
      = takeovers before file := by
    refine List.flatMap_congr fun name _ => ?_
    rw [Merged.redefinition, hm.sources]
    cases (definers before name).getLast? <;> rfl
  refine ⟨⟨Table.setAll m.entries file.2, Table.setAll m.sources
    ((Table.keys file.2).map fun typeName => (typeName, file.1))⟩, ?_, ?_, fun typeName => ?_⟩
  · unfold mergeFile
    rw [← htakeovers]
    dsimp only
    rw [Traced.liftM_bind_of_ok hfile]
    exact Traced.bind_eq_of_ok (m.addFile_eq file.1 hdistinct) rfl
  · rw [hm.entries, List.flatMap_append, List.flatMap_singleton, Table.setAll_append]
  · have hkeys : Table.keys ((Table.keys file.2).map fun typeName => (typeName, file.1))
        = Table.keys file.2 := by
      simp [Table.keys, Function.comp_def]
    rw [Table.get?_setAll (by rwa [hkeys]), hm.sources, definers_concat]
    split
    · rename_i hmem
      rw [Table.get?_map_self _ hmem, List.getLast?_concat, Option.some_or]
    · rename_i hmem
      rw [Table.get?_eq_none.mpr (by rwa [hkeys]), Option.none_or, List.append_nil]

/-- The files of a directory are merged into what was merged from those before them. -/
theorem foldlM_mergeFile_from {m : Merged} (hm : MergedFrom before m)
    (hfiles : ∀ file ∈ files, readModelFile s (path.child file.1) = .ok file.2) :
    ∃ m', (files.map Prod.fst).foldlM (mergeFile s path) m = ⟨reports path before files, .ok m'⟩
      ∧ MergedFrom (before ++ files) m' := by
  induction files generalizing before m with
  | nil => exact ⟨m, rfl, by rwa [List.append_nil]⟩
  | cons file files ih =>
      obtain ⟨m', hmerge, hm'⟩ := mergeFile_from hm (hfiles file (List.mem_cons_self ..))
      obtain ⟨m'', hrest, hm''⟩ := ih hm' fun other hmem =>
        hfiles other (List.mem_cons_of_mem _ hmem)
      refine ⟨m'', ?_, by rwa [List.append_cons]⟩
      rw [List.map_cons, List.foldlM_cons, Traced.bind_eq_of_ok hmerge hrest, reports,
        List.append_assoc, List.singleton_append]

/-! ## The files of a directory -/

/-- There is a file at a place, and it holds definitions. -/
def Store.Defines (s : Store) (place : Location) (entries : Entries) : Prop :=
  ∃ content, s.at? place = some (.file content) ∧ valueOf content = .ok (.object entries)

/-- The model files of a directory with what they define, in the order of their names. -/
structure Store.HasModelFiles (s : Store) (location : Location)
    (files : List (String × Entries)) : Prop where
  sorted : files.Pairwise fun file other => file.1 < other.1
  names : ∀ name, name ∈ files.map Prod.fst ↔
    isModelFileName name = true ∧ (s.at? (location ++ [name])).isSome = true
  defines : ∀ file ∈ files, s.Defines (location ++ [file.1]) file.2

theorem Store.Defines.unique {entries entries' : Entries} (h : s.Defines location entries)
    (h' : s.Defines location entries') : entries = entries' := by
  obtain ⟨content, hfile, hvalue⟩ := h
  obtain ⟨content', hfile', hvalue'⟩ := h'
  obtain rfl := Node.file.inj (Option.some.inj (hfile.symm.trans hfile'))
  exact Value.object.inj (Except.ok.inj (hvalue.symm.trans hvalue'))

/-- The model files are the entries with such names, in whatever order these are listed. -/
theorem mem_iff_of_entryNames_perm {names : List String}
    (h : names.Perm ((s.entryNames location).filter isModelFileName)) (name : String) :
    name ∈ names ↔ isModelFileName name = true ∧ (s.at? (location ++ [name])).isSome = true := by
  rw [h.mem_iff, List.mem_filter, mem_entryNames, and_comm]

namespace Store.HasModelFiles

variable {files' : List (String × Entries)}

theorem subset (h : s.HasModelFiles location files) (h' : s.HasModelFiles location files') :
    files ⊆ files' := by
  intro file hfile
  have hname := (h'.names file.1).mpr ((h.names file.1).mp (List.mem_map_of_mem hfile))
  obtain ⟨file', hfile', hsame⟩ := List.mem_map.mp hname
  have hdefines := h'.defines file' hfile'
  rw [hsame] at hdefines
  rwa [Prod.ext hsame.symm ((h.defines file hfile).unique hdefines)]

theorem nodup (h : s.HasModelFiles location files) : files.Nodup :=
  h.sorted.imp fun {file other} hlt heq => by
    subst heq
    exact String.lt_irrefl _ hlt

/-- A directory settles what its model files are. -/
theorem unique (h : s.HasModelFiles location files) (h' : s.HasModelFiles location files') :
    files = files' := by
  have hperm := (List.perm_ext_iff_of_nodup h.nodup h'.nodup).mpr fun _ =>
    ⟨fun hmem => h.subset h' hmem, fun hmem => h'.subset h hmem⟩
  refine hperm.eq_of_pairwise (fun file other _ _ hlt hgt => ?_) h.sorted h'.sorted
  exact absurd (String.lt_trans hlt hgt) (String.lt_irrefl _)

theorem exists_defines (h : s.HasModelFiles location files) (name : String)
    (hname : isModelFileName name = true) (hsome : (s.at? (location ++ [name])).isSome = true) :
    ∃ entries, s.Defines (location ++ [name]) entries := by
  obtain ⟨file, hfile, rfl⟩ := List.mem_map.mp ((h.names name).mpr ⟨hname, hsome⟩)
  exact ⟨file.2, h.defines file hfile⟩

end Store.HasModelFiles

theorem readModelFile_of_defines {entries : Entries} (hlocation : s.locate path = .ok location)
    (h : s.Defines location entries) : readModelFile s path = .ok entries := by
  obtain ⟨content, hfile, hvalue⟩ := h
  have hread : s.read path = .ok content :=
    Store.read_eq_ok_iff.mpr ⟨location, hlocation, hfile⟩
  have hobject : readValue s path = .ok (.object entries) := by
    rw [readValue, hread]
    exact hvalue
  rw [readModelFile, hobject]
  rfl

section Directory

variable (hlocation : s.locate path = .ok location)
  (hdirectory : s.at? location = some .directory)
include hlocation hdirectory

theorem locate_child {name : String} (hname : isModelFileName name = true) :
    s.locate (path.child name) = .ok (location ++ [name]) := by
  have hparent : (path.child name).parent = path := by
    rw [Path.child, Path.parent, List.dropLast_concat]
  have hdots : name ≠ ".." := by
    rintro rfl
    exact absurd hname (by decide)
  have hdirectory' : s.isDirectory (path.child name).parent = true := by
    rw [hparent]
    exact Store.isDirectory_iff.mpr ⟨location, hlocation, hdirectory⟩
  rw [Store.locate_of_isDirectory_parent hdirectory', Store.eq_resolve_of_locate hlocation,
    resolve, resolve, Path.child, List.foldl_append, List.foldl_cons, List.foldl_nil, follow,
    if_neg hdots]

theorem readModel_directory : readModel s path
    = (modelFileNames s path).foldlM (mergeFile s path) Merged.empty >>= fun m =>
        pure (.object m.entries) := by
  have hnot := not_isFile_of_isDirectory (Store.isDirectory_iff.mpr ⟨_, hlocation, hdirectory⟩)
  rw [readModel, if_neg hnot]

/-- If the model files of a directory hold definitions, they are merged in the order of their
names. -/
theorem exists_hasModelFiles (hfiles : ∀ name, isModelFileName name = true →
      (s.at? (location ++ [name])).isSome = true →
        ∃ entries, s.Defines (location ++ [name]) entries) :
    ∃ files, s.HasModelFiles location files ∧ modelFileNames s path = files.map Prod.fst := by
  have hisDirectory := Store.isDirectory_iff.mpr ⟨_, hlocation, hdirectory⟩
  have hnames : modelFileNames s path
      = Hierarchy.arrange .name ((s.entryNames location).filter isModelFileName) := by
    simp only [modelFileNames, hlocation, hisDirectory, if_true]
    rfl
  have hperm := Hierarchy.arrange_perm .name ((s.entryNames location).filter isModelFileName)
  rw [← hnames] at hperm
  have hmem := mem_iff_of_entryNames_perm hperm
  have hsorted := Hierarchy.arrange_name_pairwise ((nodup_entryNames s location).filter
    isModelFileName)
  rw [← hnames] at hsorted
  have hdefined : ∀ name ∈ modelFileNames s path,
      ∃ entries, s.Defines (location ++ [name]) entries := fun name hname =>
    hfiles name ((hmem name).mp hname).1 ((hmem name).mp hname).2
  choose! entries hentries using hdefined
  have hfst : ((modelFileNames s path).map fun name => (name, entries name)).map Prod.fst
      = modelFileNames s path := by
    simp [Function.comp_def]
  refine ⟨(modelFileNames s path).map fun name => (name, entries name), ⟨?_, ?_, ?_⟩, hfst.symm⟩
  · exact List.pairwise_map.mpr hsorted
  · rwa [hfst]
  · intro file hfile
    obtain ⟨name, hname, rfl⟩ := List.mem_map.mp hfile
    exact hentries name hname

/-- The model is merged from the files, and nothing else is reported. -/
theorem readModel_eq_reports (hfiles : s.HasModelFiles location files)
    (hnames : modelFileNames s path = files.map Prod.fst) :
    (∀ file ∈ files, (Table.keys file.2).Nodup) ∧ readModel s path
      = ⟨reports path [] files, .ok (.object (Table.setAll [] (files.flatMap Prod.snd)))⟩ := by
  have hread : ∀ file ∈ files, readModelFile s (path.child file.1) = .ok file.2 := by
    intro file hfile
    obtain ⟨hname, -⟩ := (hfiles.names file.1).mp (List.mem_map_of_mem hfile)
    exact readModelFile_of_defines (locate_child hlocation hdirectory hname)
      (hfiles.defines file hfile)
  have hempty : MergedFrom [] Merged.empty := ⟨rfl, fun _ => rfl⟩
  obtain ⟨m, hrun, hm⟩ := foldlM_mergeFile_from hempty hread
  refine ⟨fun file hfile => (readModelFile_eq_ok (hread file hfile)).2, ?_⟩
  rw [readModel_directory hlocation hdirectory, hnames, Traced.bind_eq_of_ok hrun rfl, hm.entries,
    List.nil_append]
  simp

/-- What a directory holds besides its model files, and in what order it lists them, does not
matter. -/
theorem readModel_congr (hlocation' : s'.locate path = .ok location)
    (hdirectory' : s'.at? location = some .directory)
    (hentries : ∀ name, isModelFileName name = true →
      s'.at? (location ++ [name]) = s.at? (location ++ [name])) :
    readModel s' path = readModel s path := by
  have hmerge : ∀ name, isModelFileName name = true →
      ∀ m, mergeFile s' path m name = mergeFile s path m name := by
    intro name hname m
    have hread : s'.read (path.child name) = s.read (path.child name) := by
      rw [Store.read, Store.read, locate_child hlocation hdirectory hname,
        locate_child hlocation' hdirectory' hname]
      simp only [bind, Except.bind, hentries name hname]
    simp only [mergeFile, readModelFile, readValue, hread]
  have hnames : modelFileNames s' path = modelFileNames s path := by
    refine modelFileNames_eq hlocation hlocation' ?_ fun name hname => by
      rw [hentries name hname]
    rw [Store.isDirectory_iff.mpr ⟨_, hlocation, hdirectory⟩,
      Store.isDirectory_iff.mpr ⟨_, hlocation', hdirectory'⟩]
  have hrun : ∀ names ⊆ modelFileNames s path, ∀ m,
      names.foldlM (mergeFile s' path) m = names.foldlM (mergeFile s path) m := by
    intro names hsub
    induction names with
    | nil => exact fun _ => rfl
    | cons name names ih =>
        obtain ⟨hmem, hrest⟩ := List.cons_subset.mp hsub
        intro m
        rw [List.foldlM_cons, List.foldlM_cons, hmerge name (isModelFileName_of_mem hmem)]
        exact congrArg _ (funext (ih hrest))
  rw [readModel_directory hlocation hdirectory, readModel_directory hlocation' hdirectory',
    hnames, hrun _ (List.Subset.refl _)]

end Directory

/-! ## What comes of merging -/

/-- What comes of merging files: the merged definitions, and what was reported. -/
structure Merges (files : List (String × Entries)) (merged : Entries) (events : List Event) :
    Prop where
  /-- A type stands where it is defined first, -/
  keys : Table.keys merged = (files.flatMap fun file => Table.keys file.2).eraseDups
  /-- and its definition is that of the last file that has it. -/
  last : ∀ before file after, files = before ++ file :: after → ∀ typeName ∈ Table.keys file.2,
    (∀ later ∈ after, typeName ∉ Table.keys later.2) →
      Table.get? merged typeName = Table.get? file.2 typeName
  /-- All warnings are about redefinitions. -/
  warnings : ∀ event ∈ events, event.level = .warning →
    ∃ typeName first second, event = .redefined typeName first second
  /-- Each file that defines a type again is reported with the definer before it, in order, -/
  takeovers : ∀ typeName, events.filterMap (takeover? typeName)
    = (definers files typeName).zip (definers files typeName).tail
  /-- so there is a report for every definer but the first. -/
  count : ∀ typeName, (events.filterMap (takeover? typeName)).length
    = (definers files typeName).length - 1

theorem merges_reports (directory : Path)
    (hdistinct : ∀ file ∈ files, (Table.keys file.2).Nodup) :
    Merges files (Table.setAll [] (files.flatMap Prod.snd)) (reports directory [] files) := by
  have htakeovers : ∀ typeName, (reports directory [] files).filterMap (takeover? typeName)
      = (definers files typeName).zip (definers files typeName).tail :=
    fun typeName => takeovers_reports directory hdistinct []
  refine ⟨?_, ?_, fun event => level_of_mem_reports, htakeovers, fun typeName => ?_⟩
  · rw [Table.keys_setAll_nil, Table.keys, List.map_flatMap]
    rfl
  · rintro before file after rfl typeName hmem hafter
    have hlater : typeName ∉ Table.keys (after.flatMap Prod.snd) := by
      rw [Table.keys, List.map_flatMap]
      intro hin
      obtain ⟨later, hlater, hin⟩ := List.mem_flatMap.mp hin
      exact hafter later hlater hin
    rw [List.flatMap_append, List.flatMap_cons, Table.setAll_append, Table.setAll_append,
      Table.get?_setAll_of_not_mem hlater, Table.get?_setAll (hdistinct file (by simp))]
    exact Option.or_of_isSome (Table.get?_isSome.mpr hmem)
  · rw [htakeovers, List.length_zip, List.length_tail]
    omega

/-- Files with disjoint types come one after the other. -/
theorem setAll_flatMap_of_disjoint (hdistinct : ∀ file ∈ files, (Table.keys file.2).Nodup)
    (hdisjoint : files.Pairwise fun file other =>
      List.Disjoint (Table.keys file.2) (Table.keys other.2)) :
    Table.setAll [] (files.flatMap Prod.snd) = files.flatMap Prod.snd := by
  refine Table.setAll_of_nodup ?_
  rw [List.nil_append, Table.keys, List.map_flatMap]
  exact List.nodup_flatMap.mpr ⟨hdistinct, hdisjoint⟩

/-- A single file is read as it is. -/
theorem readModel_of_defines {entries : Entries} (hlocation : s.locate path = .ok location)
    (h : s.Defines location entries) : (readModel s path).result = .ok (.object entries) := by
  have hfile : s.isFile path = true := by
    obtain ⟨content, hfile, -⟩ := h
    exact isFile_iff.mpr ⟨content, Store.read_eq_ok_iff.mpr ⟨location, hlocation, hfile⟩⟩
  rw [readModel, if_pos hfile, readModelFile_of_defines hlocation h]
  rfl

/-- The model in a directory is the merger of its model files by the order of their names. It is a
matter of these files alone. Where their types are disjoint, a single file with all of their
definitions in a row is read, and built, with the same result. -/
theorem readModel_merges (hlocation : s.locate path = .ok location)
    (hdirectory : s.at? location = some .directory)
    (hfiles : ∀ name, isModelFileName name = true →
      (s.at? (location ++ [name])).isSome = true →
        ∃ entries, s.Defines (location ++ [name]) entries) :
    (∃ files, s.HasModelFiles location files
      ∧ (∃ merged, (readModel s path).result = .ok (.object merged)
        ∧ Merges files merged (readModel s path).events)
      ∧ ((files.Pairwise fun file other =>
            List.Disjoint (Table.keys file.2) (Table.keys other.2)) →
          ∀ (s' : Store) (single : Path) (place : Location), s'.locate single = .ok place →
            s'.Defines place (files.flatMap Prod.snd) →
              (readModel s path).result = .ok (.object (files.flatMap Prod.snd))
              ∧ (readModel s' single).result = (readModel s path).result
              ∧ ∀ settings, (readModel s' single >>= Artifacts.ofValue settings).result
                = (readModel s path >>= Artifacts.ofValue settings).result))
      ∧ ∀ s' : Store, s'.locate path = .ok location → s'.at? location = some .directory →
        (∀ name, isModelFileName name = true →
          s'.at? (location ++ [name]) = s.at? (location ++ [name])) →
        readModel s' path = readModel s path := by
  obtain ⟨files, hfiles, hnames⟩ := exists_hasModelFiles hlocation hdirectory hfiles
  obtain ⟨hdistinct, hmodel⟩ := readModel_eq_reports hlocation hdirectory hfiles hnames
  refine ⟨⟨files, hfiles, ⟨_, by rw [hmodel], ?_⟩, ?_⟩, fun s' => ?_⟩
  · rw [hmodel]
    exact merges_reports path hdistinct
  · intro hdisjoint s' single place hplace hsingle
    have hmerged := setAll_flatMap_of_disjoint hdistinct hdisjoint
    have hsame : (readModel s' single).result = (readModel s path).result := by
      rw [readModel_of_defines hplace hsingle, hmodel, hmerged]
    refine ⟨by rw [hmodel, hmerged], hsame, fun settings => ?_⟩
    rw [Traced.bind_result, Traced.bind_result, hsame]
  · exact readModel_congr hlocation hdirectory

/-- A directory of two model files that share a type, another one of two that do not, and a file
with all definitions of the latter. Entries are not listed in order. -/
def drawers : Store :=
  let file (text : String) := Node.file (Text.Utf8.encode text)
  (((((((Store.empty []).put ["mixed"] .directory).put
    ["mixed", "b.json"] (file "\x7b\"A\": 2, \"C\": 2\x7d")).put
    ["mixed", "a.json"] (file "\x7b\"B\": 1, \"A\": 1\x7d")).put
    ["apart"] .directory).put
    ["apart", "b.json"] (file "\x7b\"A\": \x7b\x7d\x7d")).put
    ["apart", "a.json"] (file "\x7b\"B\": \x7b\x7d\x7d")).put
    ["all.json"] (file "\x7b\"B\": \x7b\x7d, \"A\": \x7b\x7d\x7d")

theorem mixed_hasModelFiles : drawers.HasModelFiles ["mixed"]
    [("a.json", [("B", .int 1), ("A", .int 1)]), ("b.json", [("A", .int 2), ("C", .int 2)])] where
  sorted := by decide
  names := mem_iff_of_entryNames_perm (by decide)
  defines := by
    simp only [List.forall_mem_cons, List.not_mem_nil, false_implies, implies_true, and_true]
    exact ⟨⟨_, rfl, by decide +kernel⟩, ⟨_, rfl, by decide +kernel⟩⟩

theorem apart_hasModelFiles : drawers.HasModelFiles ["apart"]
    [("a.json", [("B", .object [])]), ("b.json", [("A", .object [])])] where
  sorted := by decide
  names := mem_iff_of_entryNames_perm (by decide)
  defines := by
    simp only [List.forall_mem_cons, List.not_mem_nil, false_implies, implies_true, and_true]
    exact ⟨⟨_, rfl, by decide +kernel⟩, ⟨_, rfl, by decide +kernel⟩⟩

/-- The shared type keeps its place and takes the later definition. A further entry changes
nothing, and the types that are apart are read as from the file with all of them. -/
theorem drawers_merged :
    (∃ merged, (readModel drawers (.ofLocation ["mixed"])).result = .ok (.object merged)
        ∧ Merges [("a.json", [("B", .int 1), ("A", .int 1)]),
            ("b.json", [("A", .int 2), ("C", .int 2)])]
          merged (readModel drawers (.ofLocation ["mixed"])).events)
      ∧ readModel (drawers.put ["mixed", "notes"] (.file [])) (.ofLocation ["mixed"])
        = readModel drawers (.ofLocation ["mixed"])
      ∧ (readModel drawers (.ofLocation ["all.json"])).result
        = (readModel drawers (.ofLocation ["apart"])).result := by
  obtain ⟨⟨files, hfiles, hmixed, -⟩, hcongr⟩ :=
    @readModel_merges drawers (.ofLocation ["mixed"]) ["mixed"] (by decide +kernel)
      (by decide +kernel) mixed_hasModelFiles.exists_defines
  obtain ⟨⟨files', hfiles', -, hapart⟩, -⟩ :=
    @readModel_merges drawers (.ofLocation ["apart"]) ["apart"] (by decide +kernel)
      (by decide +kernel) apart_hasModelFiles.exists_defines
  obtain rfl := hfiles.unique mixed_hasModelFiles
  obtain rfl := hfiles'.unique apart_hasModelFiles
  refine ⟨hmixed, hcongr _ (by decide +kernel) (by decide +kernel) fun name hname => ?_, ?_⟩
  · have hother : ["mixed"] ++ [name] ≠ ["mixed", "notes"] := by
      intro heq
      obtain rfl : name = "notes" := by simpa using heq
      exact absurd hname (by decide)
    rw [Store.at?_put (by simp), if_neg hother]
  · have hall : drawers.Defines ["all.json"] [("B", .object []), ("A", .object [])] :=
      ⟨_, rfl, by decide +kernel⟩
    refine (hapart ?_ drawers (.ofLocation ["all.json"]) _ (by decide +kernel) hall).2.1
    simp [Table.keys]

end Files

end SchemaGen

import SchemaGen.Files.OutputFile
import SchemaGen.Proofs.Translation

/-!
# What writing changes

Before a file is written, directories are made above it. `Grows` is what holds
until then. No file changes, and directories come up only on the way to a
path, where nothing was.

A file is written or it is not, and `SaveEnds` has a case for each. When it is
written, the content is put where the path leads (`Puts`). All directories
stay then (`Keeps`), so paths lead where they led before, and nothing but the
place of the path holds something else (`Writes`). All that a refusal leaves
behind is directories on the way. Writing in place ends in one of these cases
(`overwriteFile_ends`).
-/

namespace SchemaGen.Files

namespace Store

variable {s s' t : Store} {path : Path} {location other : Location} {content : List UInt8}

/-! ## Where paths lead -/

/-- A place on the way to a path, or at its end: a beginning of the path leads there. -/
def OnWay (cwd : Location) (path : Path) (location : Location) : Prop :=
  ∃ front, front <+: path.parts ∧ location = resolve cwd { path with parts := front }

theorem step_eq_ok {part : String} (h : s.step path location part = .ok other) :
    s.at? location = some .directory ∧ other = follow location part := by
  unfold step at h
  split at h
  · rename_i hdirectory
    exact ⟨hdirectory, (Except.ok.inj h).symm⟩
  · cases h
  · cases h

theorem foldlM_step_eq_ok_iff {parts : List String} {start : Location} :
    parts.foldlM (s.step path) start = .ok location ↔
      location = parts.foldl follow start
        ∧ ∀ front part rest, parts = front ++ part :: rest →
          s.at? (front.foldl follow start) = some .directory := by
  induction parts generalizing start with
  | nil =>
      refine ⟨fun h => ⟨(Except.ok.inj h).symm, fun front part rest hsplit => ?_⟩, fun h => ?_⟩
      · exact absurd hsplit.symm (by simp)
      · rw [h.1]
        rfl
  | cons part parts ih =>
      rw [List.foldlM_cons]
      constructor
      · intro h
        obtain ⟨next, hnext, hrest⟩ := bind_eq_ok h
        obtain ⟨hdirectory, rfl⟩ := step_eq_ok hnext
        obtain ⟨hlocation, hall⟩ := ih.mp hrest
        refine ⟨hlocation, fun front other rest hsplit => ?_⟩
        cases front with
        | nil => exact hdirectory
        | cons first front =>
            obtain ⟨rfl, hrest⟩ := List.cons.inj hsplit
            exact hall front other rest hrest
      · rintro ⟨hlocation, hall⟩
        have hstep : s.step path start part = .ok (follow start part) := by
          have hdirectory := hall [] part parts rfl
          rw [List.foldl_nil] at hdirectory
          rw [step, hdirectory]
        rw [hstep]
        refine ih.mpr ⟨hlocation, fun front other rest hsplit => ?_⟩
        exact hall (part :: front) other rest (by rw [hsplit, List.cons_append])

/-- A path can be followed when there are directories at all places before its end, and it leads
where its names say. -/
theorem locate_eq_ok_iff : s.locate path = .ok location ↔
    location = resolve s.cwd path ∧ ∀ front part rest, path.parts = front ++ part :: rest →
      s.at? (resolve s.cwd { path with parts := front }) = some .directory :=
  foldlM_step_eq_ok_iff

theorem eq_resolve_of_locate (h : s.locate path = .ok location) :
    location = resolve s.cwd path :=
  (locate_eq_ok_iff.mp h).1

theorem isDirectory_iff : s.isDirectory path = true ↔
    ∃ location, s.locate path = .ok location ∧ s.at? location = some .directory := by
  rw [isDirectory, node?]
  cases s.locate path <;> simp

/-- The way to a path goes through the directory in which it lies. -/
theorem isDirectory_parent (h : s.locate path = .ok location) (hne : path.parts ≠ []) :
    s.isDirectory path.parent = true := by
  obtain ⟨-, hall⟩ := locate_eq_ok_iff.mp h
  obtain ⟨front, last, hparts⟩ := (List.eq_nil_or_concat path.parts).resolve_left hne
  have hfront : path.parent.parts = front := by
    rw [Path.parent, hparts, List.concat_eq_append, List.dropLast_concat]
  have hparent : s.locate path.parent = .ok (resolve s.cwd path.parent) := by
    refine locate_eq_ok_iff.mpr ⟨rfl, fun before part rest hsplit => ?_⟩
    refine hall before part (rest ++ [last]) ?_
    rw [hparts, ← hfront, hsplit, List.concat_eq_append, List.append_assoc, List.cons_append]
  have hdirectory := hall front last [] (by rw [hparts, List.concat_eq_append])
  have hsame : ({ path with parts := front } : Path) = path.parent := by rw [← hfront]; rfl
  rw [hsame] at hdirectory
  exact isDirectory_iff.mpr ⟨_, hparent, hdirectory⟩

/-- A path can be followed when there is a directory at the path less its last part. -/
theorem locate_of_isDirectory_parent (h : s.isDirectory path.parent = true) :
    s.locate path = .ok (resolve s.cwd path) := by
  obtain ⟨location, hlocation, hdirectory⟩ := isDirectory_iff.mp h
  obtain ⟨rfl, hall⟩ := locate_eq_ok_iff.mp hlocation
  refine locate_eq_ok_iff.mpr ⟨rfl, fun front part rest hsplit => ?_⟩
  have hparent : path.parent.parts = (front ++ part :: rest).dropLast := by
    rw [← hsplit]
    rfl
  rcases List.eq_nil_or_concat rest with rfl | ⟨rest, last, rfl⟩
  · rw [List.dropLast_concat] at hparent
    rw [show ({ path with parts := front } : Path) = path.parent by rw [← hparent]; rfl]
    exact hdirectory
  · refine hall front part rest (hparent.trans ?_)
    rw [List.concat_eq_append, ← List.cons_append, ← List.append_assoc, List.dropLast_concat]

theorem resolve_ofLocation {cwd : Location} (h : ".." ∉ location) :
    resolve cwd (Path.ofLocation location) = location := by
  have hsteps : ∀ parts start : Location, ".." ∉ parts →
      parts.foldl follow start = start ++ parts := by
    intro parts
    induction parts with
    | nil => exact fun start _ => (List.append_nil start).symm
    | cons part parts ih =>
        intro start h
        obtain ⟨hpart, hparts⟩ := not_or.mp (List.mem_cons.not.mp h)
        rw [List.foldl_cons, ih _ hparts, follow, if_neg (Ne.symm hpart), List.append_assoc,
          List.singleton_append]
  exact hsteps location [] h

/-- On the way to a place without dots are the places that it begins with. -/
theorem onWay_ofLocation_iff {cwd : Location} (h : ".." ∉ location) :
    OnWay cwd (Path.ofLocation location) other ↔ other <+: location := by
  constructor
  · rintro ⟨front, hfront, rfl⟩
    rw [show ({ Path.ofLocation location with parts := front } : Path) = Path.ofLocation front
      from rfl, resolve_ofLocation fun hmem => h (hfront.subset hmem)]
    exact hfront
  · intro hother
    exact ⟨other, hother, (resolve_ofLocation fun hmem => h (hother.subset hmem)).symm⟩

/-- Nothing can be put in the place of the root. -/
theorem ne_root_of_at? (h : s.at? location ≠ some .directory) : location ≠ [] := by
  rintro rfl
  exact h rfl

theorem ne_root_of_at?_eq_none (h : s.at? location = none) : location ≠ [] := by
  rintro rfl
  cases h

/-! ## Growing by directories -/

/-- What is at a place is what was there, or a directory made on the way where nothing was. -/
def KeptAt (way : Path) (s s' : Store) (location : Location) : Prop :=
  s'.at? location = s.at? location
    ∨ (s.at? location = none ∧ s'.at? location = some .directory ∧ OnWay s.cwd way location)

/-- `s'` is `s` with directories made on the way. -/
structure Grows (way : Path) (s s' : Store) : Prop where
  cwd : s'.cwd = s.cwd
  kept : ∀ location, KeptAt way s s' location

namespace Grows

variable {way : Path}

theorem refl (way : Path) (s : Store) : Grows way s s := ⟨rfl, fun _ => Or.inl rfl⟩

theorem trans (h : Grows way s s') (h' : Grows way s' t) : Grows way s t := by
  refine ⟨h'.cwd.trans h.cwd, fun location => ?_⟩
  have hway' := h'.kept location
  rw [KeptAt, h.cwd] at hway'
  rcases h.kept location with hsame | ⟨hnone, hmade, hway⟩
  · rw [hsame] at hway'
    exact hway'
  · rcases hway' with hsame | ⟨hnothing, -, -⟩
    · exact Or.inr ⟨hnone, hsame.trans hmade, hway⟩
    · cases hmade.symm.trans hnothing

/-- What is on the way to the parent is on the way to the path. -/
theorem of_parent (h : Grows way.parent s s') : Grows way s s' := by
  refine ⟨h.cwd, fun location => (h.kept location).imp_right ?_⟩
  rintro ⟨hnone, hmade, front, hfront, heq⟩
  exact ⟨hnone, hmade, front, hfront.trans (List.dropLast_prefix _), heq⟩

end Grows

/-- Where only a directory could be made, there is the file that was there, or none. -/
theorem KeptAt.file_iff {way : Path} (h : KeptAt way s s' location) :
    s'.at? location = some (.file content) ↔ s.at? location = some (.file content) := by
  rcases h with hsame | ⟨hnone, hmade, -⟩
  · rw [hsame]
  · simp [hnone, hmade]

/-! ## Making directories -/

theorem makeDirectory_grows (h : s.makeDirectory path = .ok s') : Grows path s s' := by
  obtain ⟨location, hlocation, h⟩ := bind_eq_ok h
  split at h
  · cases h
  · rename_i hnone
    obtain rfl := Except.ok.inj h
    refine ⟨rfl, fun other => ?_⟩
    rw [KeptAt, at?_put (ne_root_of_at?_eq_none hnone)]
    by_cases heq : other = location
    · subst heq
      exact Or.inr ⟨hnone, if_pos rfl, path.parts, List.prefix_rfl, eq_resolve_of_locate hlocation⟩
    · exact Or.inl (if_neg heq)

/-- Where the directory above is missing, it is made first. -/
theorem makeDirectories_of_notFound {missing : String}
    (hmade : s.makeDirectory path = .error (.notFound missing)) (hne : path.parts ≠ [])
    (depth : Nat) : s.makeDirectories path (depth + 1)
      = match s.makeDirectories path.parent depth with
        | (t, .error fault) => (t, .error fault)
        | (t, .ok ()) => t.makeDirectories path 0 := by
  rw [makeDirectories, hmade]
  exact if_neg hne

/-- Making directories is making one, or finding one there, or refusing, or doing the same above
first. What goes along with these steps holds of the whole. -/
theorem makeDirectories_induction {motive : Path → Store → Store × Except StoreFault Unit → Prop}
    (made : ∀ {path s s'}, s.makeDirectory path = .ok s' → motive path s (s', .ok ()))
    (kept : ∀ {path s result}, (result = .ok () → s.isDirectory path = true) →
      motive path s (s, result))
    (stopped : ∀ {path s t fault}, motive path.parent s (t, .error fault) →
      motive path s (t, .error fault))
    (above : ∀ {path s t result}, motive path.parent s (t, .ok ()) → motive path t result →
      motive path s result)
    (s : Store) (path : Path) (depth : Nat) : motive path s (s.makeDirectories path depth) := by
  have hzero : ∀ s path, motive path s (s.makeDirectories path 0) := by
    intro s path
    unfold makeDirectories
    split
    · rename_i hmade
      exact made hmade
    · refine kept fun hok => ?_
      by_contra hnot
      simp [hnot] at hok
  induction depth generalizing path with
  | zero => exact hzero s path
  | succ depth ih =>
      cases hmade : s.makeDirectory path with
      | ok s' =>
          simp only [makeDirectories, hmade]
          exact made hmade
      | error fault =>
          cases fault with
          | notFound missing =>
              by_cases hne : path.parts = []
              · simp only [makeDirectories, hmade, if_pos hne]
                exact kept (by simp)
              · rw [makeDirectories_of_notFound hmade hne]
                have hparent := ih path.parent
                generalize s.makeDirectories path.parent depth = first at hparent ⊢
                obtain ⟨t, result⟩ := first
                cases result with
                | error fault => exact stopped hparent
                | ok _ => exact above hparent (hzero t path)
          | _ =>
              simp only [makeDirectories, hmade]
              refine kept fun hok => ?_
              by_contra hnot
              simp [hnot] at hok

theorem makeDirectories_grows (s : Store) (path : Path) (depth : Nat) :
    Grows path s (s.makeDirectories path depth).1 := by
  refine makeDirectories_induction (motive := fun path s made => Grows path s made.1)
    ?_ ?_ ?_ ?_ s path depth
  · exact fun hmade => makeDirectory_grows hmade
  · exact fun _ => .refl _ _
  · exact fun hparent => hparent.of_parent
  · exact fun hparent hrest => hparent.of_parent.trans hrest

theorem makeParent_grows (s : Store) (path : Path) : Grows path.parent s (s.makeParent path).1 :=
  makeDirectories_grows s path.parent path.parts.length

/-! ## Directories stay -/

/-- `s'` has the working directory and all the directories of `s`. -/
structure Keeps (s s' : Store) : Prop where
  cwd : s'.cwd = s.cwd
  directory : ∀ l, s.at? l = some .directory → s'.at? l = some .directory

namespace Keeps

variable {node : Node}

theorem trans (h : Keeps s s') (h' : Keeps s' t) : Keeps s t :=
  ⟨h'.cwd.trans h.cwd, fun _ hdirectory => h'.directory _ (h.directory _ hdirectory)⟩

theorem put (hother : s.at? location ≠ some .directory) : Keeps s (s.put location node) := by
  refine ⟨rfl, fun l hdirectory => ?_⟩
  have hne : l ≠ location := by
    rintro rfl
    exact hother hdirectory
  rw [at?_put (ne_root_of_at? hother), if_neg hne, hdirectory]

/-- A path leads to the same place when all directories are still there. -/
theorem locate (h : Keeps s s') (hlocation : s.locate path = .ok location) :
    s'.locate path = .ok location := by
  obtain ⟨rfl, hall⟩ := locate_eq_ok_iff.mp hlocation
  rw [← h.cwd] at hall ⊢
  exact locate_eq_ok_iff.mpr ⟨rfl, fun front part rest hsplit =>
    h.directory _ (hall front part rest hsplit)⟩

end Keeps

theorem Grows.keeps {way : Path} (h : Grows way s s') : Keeps s s' := by
  refine ⟨h.cwd, fun l hdirectory => ?_⟩
  rcases h.kept l with hsame | ⟨hnone, -, -⟩
  · rw [hsame, hdirectory]
  · cases hdirectory.symm.trans hnone

/-! ## Writing -/

/-- The file at the path has the content, and all other places keep what they had. -/
def Writes (path : Path) (content : List UInt8) (s s' : Store) : Prop :=
  ∃ location, s'.locate path = .ok location ∧ s'.at? location = some (.file content)
    ∧ ∀ other, other ≠ location → KeptAt path.parent s s' other

theorem read_eq_ok_iff : s.read path = .ok content ↔
    ∃ location, s.locate path = .ok location ∧ s.at? location = some (.file content) := by
  constructor
  · intro h
    obtain ⟨location, hlocation, h⟩ := bind_eq_ok h
    split at h
    · rename_i hfile
      obtain rfl := Except.ok.inj h
      exact ⟨location, hlocation, hfile⟩
    · cases h
    · cases h
  · rintro ⟨location, hlocation, hfile⟩
    rw [Store.read, hlocation]
    simp only [bind, Except.bind, hfile, pure, Except.pure]

theorem Writes.read (h : Writes path content s s') : s'.read path = .ok content := by
  obtain ⟨location, hlocation, hfile, -⟩ := h
  exact read_eq_ok_iff.mpr ⟨location, hlocation, hfile⟩

theorem write_eq_ok_iff : s.write path content = .ok s' ↔
    ∃ location, s.locate path = .ok location ∧ s.at? location ≠ some .directory
      ∧ s' = s.put location (.file content) := by
  constructor
  · intro h
    obtain ⟨location, hlocation, h⟩ := bind_eq_ok h
    split at h
    · cases h
    · rename_i hother
      exact ⟨location, hlocation, hother, (Except.ok.inj h).symm⟩
  · rintro ⟨location, hlocation, hother, rfl⟩
    rw [write, hlocation]
    dsimp only [bind, Except.bind]
    split
    · rename_i hdirectory
      exact absurd hdirectory hother
    · rfl

theorem eq_of_nodes_eq (hnodes : s.nodes = t.nodes) (hcwd : s.cwd = t.cwd) : s = t := by
  cases s
  cases t
  cases hnodes
  cases hcwd
  rfl

theorem putNode_putNode (nodes : List (Location × Node)) (location : Location) (node node' : Node) :
    putNode (putNode nodes location node) location node' = putNode nodes location node' := by
  by_cases hthere : nodes.any (·.1 = location) = true
  · have hput : putNode nodes location node
        = nodes.map fun e => if e.1 = location then (location, node) else e := if_pos hthere
    have hthere' : (putNode nodes location node).any (·.1 = location) = true := by
      obtain ⟨e, he, hplace⟩ := List.any_eq_true.mp hthere
      rw [hput]
      refine List.any_eq_true.mpr ⟨_, List.mem_map_of_mem he, ?_⟩
      simp [of_decide_eq_true hplace]
    rw [putNode, if_pos hthere', hput, List.map_map, putNode, if_pos hthere]
    refine List.map_congr_left fun e _ => ?_
    by_cases he : e.1 = location <;> simp [he]
  · have hput : putNode nodes location node = nodes ++ [(location, node)] := if_neg hthere
    have hkept : (nodes.map fun e => if e.1 = location then (location, node') else e) = nodes := by
      refine (List.map_congr_left fun e he => if_neg fun heq => hthere ?_).trans (List.map_id _)
      exact List.any_eq_true.mpr ⟨e, he, decide_eq_true heq⟩
    have hthere' : (putNode nodes location node).any (·.1 = location) = true := by simp [hput]
    rw [putNode, if_pos hthere', hput, List.map_append, hkept, putNode, if_neg hthere]
    simp

/-- What is put last counts. -/
theorem put_put (s : Store) (location : Location) (node node' : Node) :
    (s.put location node).put location node' = s.put location node' :=
  eq_of_nodes_eq (putNode_putNode ..) rfl

/-- Whether a file can be written is not a matter of what is written. -/
theorem write_refused {fault : StoreFault} {other : List UInt8}
    (h : s.write path content = .error fault) : s.write path other = .error fault := by
  unfold write at h ⊢
  cases hlocation : s.locate path with
  | error refused =>
      rw [hlocation] at h
      exact h
  | ok location =>
      simp only [hlocation, bind, Except.bind] at h ⊢
      split at h
      · exact h
      · cases h

theorem write_ok (h : s.write path content = .ok s') (other : List UInt8) :
    ∃ after, s.write path other = .ok after := by
  obtain ⟨location, hlocation, hother, -⟩ := write_eq_ok_iff.mp h
  exact ⟨_, write_eq_ok_iff.mpr ⟨location, hlocation, hother, rfl⟩⟩

/-- A file is written a second time as if for the first. -/
theorem write_write (h : s.write path content = .ok s') (other : List UInt8) :
    s'.write path other = s.write path other := by
  obtain ⟨location, hlocation, hother, rfl⟩ := write_eq_ok_iff.mp h
  have hroot := ne_root_of_at? hother
  have hagain : (s.put location (.file content)).write path other
      = .ok ((s.put location (.file content)).put location (.file other)) := by
    refine write_eq_ok_iff.mpr ⟨location, (Keeps.put hother).locate hlocation, ?_, rfl⟩
    simp [at?_put hroot]
  rw [hagain, put_put]
  exact (write_eq_ok_iff.mpr ⟨location, hlocation, hother, rfl⟩).symm

/-- `s'` is a grown store in which a file was put at the place of the path, in the stead of another
one or of none. -/
def Puts (path : Path) (content : List UInt8) (s s' : Store) : Prop :=
  ∃ t location, Grows path.parent s t ∧ t.locate path = .ok location
    ∧ t.at? location ≠ some .directory ∧ s' = t.put location (.file content)

theorem Puts.keeps (h : Puts path content s s') : Keeps s s' := by
  obtain ⟨t, location, hgrows, -, hother, rfl⟩ := h
  exact hgrows.keeps.trans (.put hother)

theorem Puts.writes (h : Puts path content s s') : Writes path content s s' := by
  obtain ⟨t, location, hgrows, hlocation, hother, rfl⟩ := h
  have hroot := ne_root_of_at? hother
  refine ⟨location, (Keeps.put hother).locate hlocation, ?_, fun other hne => ?_⟩
  · rw [at?_put hroot, if_pos rfl]
  · rw [KeptAt, at?_put hroot, if_neg hne]
    exact hgrows.kept other

theorem Grows.write (h : Grows path.parent s t) (hwrite : t.write path content = .ok s') :
    Puts path content s s' := by
  obtain ⟨location, hlocation, hother, rfl⟩ := write_eq_ok_iff.mp hwrite
  exact ⟨t, location, h, hlocation, hother, rfl⟩

end Store

open Store (Grows Puts Writes)

/-- The ways in which writing a file ends. -/
inductive SaveEnds (path : Path) (content : List UInt8) (s : Store) :
    Store → Except Fault Unit → Prop
  | written {s' : Store} : Puts path content s s' → SaveEnds path content s s' (.ok ())
  | refused {s' : Store} {fault : Fault} : Grows path.parent s s' →
      SaveEnds path content s s' (.error fault)

/-- Opened for writing and then written, a file holds what was written, as if it had been written at
once. -/
theorem overwriteFile_ofString (s : Store) (path : Path) (content : String) :
    overwriteFile s path content = match s.makeParent path with
      | (t, .error fault) => (t, .error (.store fault))
      | (t, .ok ()) => match t.write path (Text.Utf8.encode content) with
        | .ok s' => (s', .ok ())
        | .error fault => (t, .error (.store fault)) := by
  unfold overwriteFile
  generalize s.makeParent path = made
  obtain ⟨t, result⟩ := made
  cases result with
  | error fault => rfl
  | ok _ =>
      cases hopened : t.write path [] with
      | error fault => simp only [hopened, Store.write_refused hopened]
      | ok opened =>
          obtain ⟨s', hwrite⟩ := Store.write_ok hopened (Text.Utf8.encode content)
          simp only [hopened, Text.RawText.encode_ofString, Store.write_write hopened, hwrite]

theorem overwriteFile_ends (s : Store) (path : Path) (content : String) :
    SaveEnds path (Text.Utf8.encode content) s (overwriteFile s path content).1
      (overwriteFile s path content).2 := by
  have hgrows := Store.makeParent_grows s path
  rw [overwriteFile_ofString]
  generalize s.makeParent path = made at hgrows ⊢
  obtain ⟨t, result⟩ := made
  cases result with
  | error fault => exact .refused hgrows
  | ok _ =>
      cases hwrite : t.write path (Text.Utf8.encode content) with
      | error fault =>
          simp only [hwrite]
          exact .refused hgrows
      | ok s' =>
          simp only [hwrite]
          exact .written (hgrows.write hwrite)

end SchemaGen.Files

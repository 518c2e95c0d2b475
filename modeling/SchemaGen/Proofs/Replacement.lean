import SchemaGen.Proofs.Storage

/-!
# Replacing a file as a whole

A file is replaced in three steps, and each of them can be refused. The
directories on the way are made, the content goes to a temporary file and is
checked, and the temporary file is moved to the target.

The directory of a path can be made if and only if no file stands on the way
to it (`makeParent_ok_iff`). The recursion goes up to the first place where
something is and comes down again. The induction is on the depth, for all
paths, and what it carries is that directories are on the whole way once
they were made.

A text without octets stops the work before its second step
(`replaceFile_of_encode_error`). So it stops writing in place, but there the
file has been emptied by then (`overwriteFile_of_encode_error`).

The temporary file is gone before it is seen. Taking it away gives the store
back as it was, not only what is at each place (`remove_put`), and its name
is longer than that of the target, so it is never the target itself. Moving
it there is therefore writing there (`moveTo_temporary`). So to replace a
file is to write it in place, once the content has passed
(`replaceFile_eq_overwriteFile`), or to do nothing but make directories
(`replaceFile_refused`).

What is known of writing in place carries over: how it ends
(`replaceFile_ends`, and under all settings `saveOutput_ends`), and when it
succeeds (`replaceFile_ok_iff`). `replaceFile_atomic` puts both together.
-/

namespace SchemaGen.Files

namespace Store

variable {s s' t : Store} {path : Path} {location : Location} {node : Node}

/-! ## Directories on the way -/

/-- No file stands on the way to a path. -/
def Clear (s : Store) (path : Path) : Prop :=
  ∀ location, OnWay s.cwd path location → ∀ content, s.at? location ≠ some (.file content)

theorem Clear.parent (h : s.Clear path) : s.Clear path.parent := by
  rintro location ⟨front, hfront, rfl⟩
  exact h _ ⟨front, hfront.trans (List.dropLast_prefix _), rfl⟩

theorem onWay_end (cwd : Location) (path : Path) : OnWay cwd path (resolve cwd path) :=
  ⟨path.parts, List.prefix_rfl, rfl⟩

/-- Where a directory is, there are directories all the way. -/
theorem at?_of_onWay (h : s.isDirectory path = true) (hway : OnWay s.cwd path location) :
    s.at? location = some .directory := by
  obtain ⟨_, hlocation, hdirectory⟩ := isDirectory_iff.mp h
  obtain ⟨rfl, hall⟩ := locate_eq_ok_iff.mp hlocation
  obtain ⟨front, ⟨rest, hsplit⟩, rfl⟩ := hway
  cases rest with
  | nil =>
      rw [List.append_nil] at hsplit
      rw [hsplit]
      exact hdirectory
  | cons part rest => exact hall front part rest hsplit.symm

/-- A path that cannot be followed stops where nothing is, or at a file. -/
theorem foldlM_step_eq_error {parts : List String} {start : Location} {fault : StoreFault}
    (h : parts.foldlM (s.step path) start = .error fault) :
    ∃ front part rest, parts = front ++ part :: rest
      ∧ (fault = .notFound path.display
        ∨ ∃ content, s.at? (front.foldl follow start) = some (.file content)) := by
  induction parts generalizing start with
  | nil => cases h
  | cons part parts ih =>
      rw [List.foldlM_cons] at h
      cases hat : s.at? start with
      | none =>
          rw [step, hat] at h
          obtain rfl := Except.error.inj h
          exact ⟨[], part, parts, rfl, Or.inl rfl⟩
      | some node =>
          cases node with
          | file content => exact ⟨[], part, parts, rfl, Or.inr ⟨content, hat⟩⟩
          | directory =>
              rw [step, hat] at h
              obtain ⟨front, other, rest, rfl, hstop⟩ := ih h
              exact ⟨part :: front, other, rest, rfl, hstop⟩

theorem locate_of_clear (h : s.Clear path) {fault : StoreFault}
    (hfault : s.locate path = .error fault) :
    path.parts ≠ [] ∧ fault = .notFound path.display := by
  obtain ⟨front, part, rest, hsplit, hstop⟩ := foldlM_step_eq_error hfault
  refine ⟨by simp [hsplit], hstop.resolve_right ?_⟩
  rintro ⟨content, hfile⟩
  exact h _ ⟨front, ⟨part :: rest, hsplit.symm⟩, rfl⟩ content hfile

theorem isDirectory_of_makeDirectory (h : s.makeDirectory path = .ok s') :
    s'.isDirectory path = true := by
  obtain ⟨location, hlocation, h⟩ := bind_eq_ok h
  split at h
  · cases h
  · rename_i hnone
    obtain rfl := Except.ok.inj h
    refine isDirectory_iff.mpr ⟨location, (Keeps.put (by simp [hnone])).locate hlocation, ?_⟩
    rw [at?_put (ne_root_of_at?_eq_none hnone), if_pos rfl]

theorem isDirectory_of_makeDirectories {depth : Nat}
    (h : (s.makeDirectories path depth).2 = .ok ()) :
    (s.makeDirectories path depth).1.isDirectory path = true := by
  refine makeDirectories_induction
    (motive := fun path _ made => made.2 = .ok () → made.1.isDirectory path = true)
    ?_ ?_ ?_ ?_ s path depth h
  · exact fun hmade _ => isDirectory_of_makeDirectory hmade
  · exact fun hkept => hkept
  · exact fun _ hfault => by cases hfault
  · exact fun _ hrest => hrest

theorem makeDirectories_of_isDirectory (h : s.isDirectory path = true) (depth : Nat) :
    s.makeDirectories path depth = (s, .ok ()) := by
  obtain ⟨location, hlocation, hdirectory⟩ := isDirectory_iff.mp h
  have hmade : s.makeDirectory path = .error (.exists path.display) := by
    rw [makeDirectory, hlocation]
    simp only [bind, Except.bind, hdirectory]
  cases depth <;> simp [makeDirectories, hmade, h]

/-- Where no file is, a directory is made or there is one. -/
theorem makeDirectories_of_locate (hlocation : s.locate path = .ok location)
    (hfile : ∀ content, s.at? location ≠ some (.file content)) (depth : Nat) :
    (s.makeDirectories path depth).2 = .ok () := by
  cases hat : s.at? location with
  | none =>
      have hmade : s.makeDirectory path = .ok (s.put location .directory) := by
        rw [makeDirectory, hlocation]
        simp only [bind, Except.bind, hat]
        rfl
      cases depth <;> simp [makeDirectories, hmade]
  | some node =>
      cases node with
      | file content => exact absurd hat (hfile content)
      | directory =>
          have hdirectory := isDirectory_iff.mpr ⟨location, hlocation, hat⟩
          rw [makeDirectories_of_isDirectory hdirectory]

theorem makeDirectories_of_clear (h : s.Clear path) {depth : Nat}
    (hdepth : path.parts.length ≤ depth) : (s.makeDirectories path depth).2 = .ok () := by
  induction depth generalizing path with
  | zero =>
      have hnil := List.length_eq_zero_iff.mp (Nat.le_zero.mp hdepth)
      have hlocation : s.locate path = .ok (resolve s.cwd path) :=
        locate_eq_ok_iff.mpr ⟨rfl, fun _ _ _ hsplit => by simp [hnil] at hsplit⟩
      exact makeDirectories_of_locate hlocation (h _ (onWay_end ..)) 0
  | succ depth ih =>
      cases hlocation : s.locate path with
      | ok location =>
          obtain rfl := eq_resolve_of_locate hlocation
          exact makeDirectories_of_locate hlocation (h _ (onWay_end ..)) _
      | error fault =>
          obtain ⟨hne, rfl⟩ := locate_of_clear h hlocation
          have hmade : s.makeDirectory path = .error (.notFound path.display) := by
            rw [makeDirectory, hlocation]
            rfl
          have hlength : path.parent.parts.length ≤ depth := by
            rw [Path.parent, List.length_dropLast]
            omega
          have habove := ih h.parent hlength
          have hdirectory := isDirectory_of_makeDirectories habove
          have hgrows := makeDirectories_grows s path.parent depth
          rw [makeDirectories_of_notFound hmade hne]
          generalize s.makeDirectories path.parent depth = above at habove hdirectory hgrows ⊢
          obtain ⟨t, result⟩ := above
          dsimp only at habove hdirectory hgrows
          subst habove
          refine makeDirectories_of_locate (locate_of_isDirectory_parent hdirectory) ?_ 0
          intro content hfile
          rw [hgrows.cwd] at hfile
          exact h _ (onWay_end ..) content ((hgrows.kept _).file_iff.mp hfile)

/-- The directory of a path can be made if and only if no file stands on the way to it. -/
theorem makeParent_ok_iff : (s.makeParent path).2 = .ok () ↔ s.Clear path.parent := by
  constructor
  · intro h location hway content hfile
    have hgrows := makeParent_grows s path
    have hdirectory := isDirectory_of_makeDirectories h
    have hmade := at?_of_onWay hdirectory (hgrows.cwd ▸ hway)
    have hstill := (hgrows.kept location).file_iff.mpr hfile
    cases hmade.symm.trans hstill
  · intro h
    refine makeDirectories_of_clear h ?_
    rw [Path.parent, List.length_dropLast]
    omega

/-- When it was made, directories are where they were and on the way. -/
theorem makeParent_directory_iff (h : (s.makeParent path).2 = .ok ()) :
    (s.makeParent path).1.at? location = some .directory ↔
      s.at? location = some .directory ∨ OnWay s.cwd path.parent location := by
  have hgrows := makeParent_grows s path
  constructor
  · intro hmade
    rcases hgrows.kept location with hsame | ⟨-, -, hway⟩
    · exact Or.inl (hsame.symm.trans hmade)
    · exact Or.inr hway
  · rintro (hdirectory | hway)
    · exact hgrows.keeps.directory location hdirectory
    · exact at?_of_onWay (isDirectory_of_makeDirectories h) (hgrows.cwd ▸ hway)

/-- Then a file can be written unless a directory has its place. -/
theorem makeParent_write_iff (h : (s.makeParent path).2 = .ok ()) (content : List UInt8) :
    (∃ s', (s.makeParent path).1.write path content = .ok s') ↔
      s.at? (resolve s.cwd path) ≠ some .directory
        ∧ ¬OnWay s.cwd path.parent (resolve s.cwd path) := by
  have hlocation := locate_of_isDirectory_parent (isDirectory_of_makeDirectories h)
  rw [(makeDirectories_grows s path.parent path.parts.length).cwd] at hlocation
  rw [← not_or, ← makeParent_directory_iff h]
  constructor
  · rintro ⟨s', hwrite⟩
    obtain ⟨location, hsame, hother, -⟩ := write_eq_ok_iff.mp hwrite
    obtain rfl := Except.ok.inj (hlocation.symm.trans hsame)
    exact hother
  · exact fun hother => ⟨_, write_eq_ok_iff.mpr ⟨_, hlocation, hother, rfl⟩⟩

/-! ## Temporary files -/

/-- Taking away what was put where nothing was gives the store back. -/
theorem remove_put (hnone : s.at? location = none) :
    (s.put location node).remove location = s := by
  have hfree : ∀ e ∈ s.nodes, e.1 ≠ location := by
    rw [at?_eq_find? (ne_root_of_at?_eq_none hnone), Option.map_eq_none_iff,
      List.find?_eq_none] at hnone
    exact fun e he heq => hnone e he (by simpa using heq)
  have hany : ¬s.nodes.any (·.1 = location) = true := by
    simp only [List.any_eq_true, decide_eq_true_eq, not_exists, not_and]
    exact hfree
  have hkept : (s.nodes.filter fun e => e.1 ≠ location) = s.nodes :=
    List.filter_eq_self.mpr fun e he => by simpa using hfree e he
  refine eq_of_nodes_eq ?_ rfl
  show ((s.put location node).nodes.filter fun e => e.1 ≠ location) = s.nodes
  rw [nodes_put, putNode, if_neg hany, List.filter_append, hkept]
  simp

theorem temporaryName_ne (s : Store) (name : String) : s.temporaryName name ≠ name := by
  intro h
  have hlength := congrArg String.length h
  simp [temporaryName] at hlength
  omega

theorem resolve_of_endsInName (hname : path.endsInName = true) (cwd : Location) :
    resolve cwd path = resolve cwd path.parent ++ [path.name] := by
  obtain ⟨slashes, parts⟩ := path
  rcases List.eq_nil_or_concat parts with rfl | ⟨front, last, rfl⟩
  · cases hname
  · have hdots : last ≠ ".." := by simpa [Path.endsInName] using hname
    simp [resolve, Path.parent, Path.name, follow, hdots]

/-- Moving a filled temporary file to its target is writing the target. -/
theorem moveTo_temporary {directory : Location} (hname : path.endsInName = true)
    (hlocation : s.locate path.parent = .ok directory)
    (hdirectory : s.at? directory = some .directory) (content : List UInt8) :
    (s.put (directory ++ [s.temporaryName path.name]) (.file content)).moveTo
      (directory ++ [s.temporaryName path.name]) path = s.write path content := by
  have hnone := s.at?_temporary directory path.name
  have htarget : s.locate path = .ok (directory ++ [path.name]) := by
    have hparent := isDirectory_iff.mpr ⟨_, hlocation, hdirectory⟩
    rw [locate_of_isDirectory_parent hparent, resolve_of_endsInName hname,
      ← eq_resolve_of_locate hlocation]
  have hne : directory ++ [path.name] ≠ directory ++ [s.temporaryName path.name] := by
    intro heq
    exact s.temporaryName_ne path.name (List.cons.inj (List.append_cancel_left heq)).1.symm
  generalize directory ++ [s.temporaryName path.name] = temporary at hnone hne ⊢
  have hroot := ne_root_of_at?_eq_none hnone
  have hput : Keeps s (s.put temporary (.file content)) := .put (by simp [hnone])
  rw [moveTo, hname, write, hput.locate htarget, htarget]
  simp only [bind, Except.bind, at?_put hroot, if_neg hne, if_pos, remove_put hnone]
  rcases s.at? (directory ++ [path.name]) with _ | _ | _ <;> rfl

end Store

open Store (Clear OnWay Puts)
open SchemaGen.Text (RawText EncodingFault)

variable {s : Store} {path : Path} {content : String} {raw : RawText} {checked : Bool}

/-! ## One way of writing and the other -/

/-- The checks that are wanted before a file is replaced. -/
def Passes (content : RawText) (checked : Bool) : Prop :=
  checked = true → checkModule content.shown = .ok ()

theorem Passes.verdict {α : Type} (h : Passes raw checked) (x : Except Fault α) :
    (if checked = true then do (checkModule raw.shown).mapError Fault.check; x else x) = x := by
  cases checked with
  | false => rfl
  | true =>
      rw [h rfl]
      rfl

/-- A file is replaced as it is written in place, where the path ends in a name and the content
passes: it makes no difference that it goes through a temporary file. -/
theorem replaceFile_eq_overwriteFile (hname : path.endsInName = true)
    (hpasses : Passes content checked) :
    replaceFile s path content checked = overwriteFile s path content := by
  have hdirectory := @Store.isDirectory_of_makeDirectories s path.parent path.parts.length
  rw [overwriteFile_ofString]
  unfold replaceFile Store.makeParent
  generalize s.makeDirectories path.parent path.parts.length = made at hdirectory ⊢
  obtain ⟨t, result⟩ := made
  cases result with
  | error fault => rfl
  | ok _ =>
      obtain ⟨directory, hlocation, hat⟩ := Store.isDirectory_iff.mp (hdirectory rfl)
      have hnone := t.at?_temporary directory path.name
      simp only [hlocation, RawText.encode_ofString, Store.put_put,
        Store.moveTo_temporary hname hlocation hat, hpasses.verdict, Store.remove_put hnone]
      cases t.write path (Text.Utf8.encode content) <;> rfl

/-- Otherwise nothing is done but making directories. -/
theorem replaceFile_refused (h : ¬(path.endsInName = true ∧ Passes content checked)) :
    ∃ fault, replaceFile s path content checked = ((s.makeParent path).1, .error fault) := by
  unfold replaceFile
  generalize s.makeParent path = made
  obtain ⟨t, result⟩ := made
  cases result with
  | error fault => exact ⟨_, rfl⟩
  | ok _ =>
      cases hlocation : t.locate path.parent with
      | error fault => exact ⟨.store fault, by simp only [hlocation]⟩
      | ok directory =>
          have hnone := t.at?_temporary directory path.name
          simp only [hlocation, RawText.encode_ofString, Store.put_put, Store.remove_put hnone]
          by_cases hname : path.endsInName = true
          · -- the checks are wanted, and one of them fails
            obtain ⟨rfl, hfails⟩ := Classical.not_imp.mp fun hpasses => h ⟨hname, hpasses⟩
            cases hcheck : checkModule (RawText.ofString content).shown with
            | ok _ => exact absurd hcheck hfails
            | error fault => exact ⟨.check fault, rfl⟩
          · have hmove : ∀ t : Store, ∀ source,
                t.moveTo source path = .error (.busy path.display) := by
              intro t source
              rw [Store.moveTo, Bool.not_eq_true _ |>.mp hname]
              rfl
            simp only [hmove]
            cases checked with
            | false => exact ⟨_, rfl⟩
            | true => cases checkModule (RawText.ofString content).shown <;> exact ⟨_, rfl⟩

/-- A text without octets stops both ways of writing. The temporary file is taken away again, and
the place of the path, if it can be written, holds an empty file. -/
theorem replaceFile_of_encode_error {fault : EncodingFault} (h : raw.encode = .error fault) :
    replaceFile s path raw checked
      = ((s.makeParent path).1, match (s.makeParent path).2 with
        | .ok _ => .error (.encoding fault)
        | .error refused => .error (.store refused)) := by
  have hdirectory := @Store.isDirectory_of_makeDirectories s path.parent path.parts.length
  unfold replaceFile Store.makeParent
  generalize s.makeDirectories path.parent path.parts.length = made at hdirectory ⊢
  obtain ⟨t, result⟩ := made
  cases result with
  | error refused => rfl
  | ok _ =>
      obtain ⟨directory, hlocation, -⟩ := Store.isDirectory_iff.mp (hdirectory rfl)
      simp only [hlocation, h, Store.remove_put (t.at?_temporary directory path.name)]

theorem overwriteFile_of_encode_error {fault : EncodingFault} (h : raw.encode = .error fault) :
    overwriteFile s path raw = match s.makeParent path with
      | (t, .error refused) => (t, .error (.store refused))
      | (t, .ok ()) => match t.write path [] with
        | .error refused => (t, .error (.store refused))
        | .ok emptied => (emptied, .error (.encoding fault)) := by
  unfold overwriteFile
  obtain ⟨t, result⟩ := s.makeParent path
  cases result with
  | error refused => rfl
  | ok _ =>
      cases hwrite : t.write path [] with
      | error refused => simp only [hwrite]
      | ok emptied => simp only [hwrite, h]

/-! ## When writing succeeds -/

/-- Writing in place makes the directory and writes, or stops with what was made. -/
theorem overwriteFile_cases (s : Store) (path : Path) (content : String) :
    (∃ s', (s.makeParent path).2 = .ok ()
        ∧ (s.makeParent path).1.write path (Text.Utf8.encode content) = .ok s'
        ∧ overwriteFile s path content = (s', .ok ()))
      ∨ ∃ fault, overwriteFile s path content = ((s.makeParent path).1, .error fault)
        ∧ ((s.makeParent path).2 = .ok () → ∀ s',
          (s.makeParent path).1.write path (Text.Utf8.encode content) ≠ .ok s') := by
  rw [overwriteFile_ofString]
  generalize s.makeParent path = made
  obtain ⟨t, result⟩ := made
  cases result with
  | error fault => exact Or.inr ⟨.store fault, rfl, by simp⟩
  | ok _ =>
      cases hwrite : t.write path (Text.Utf8.encode content) with
      | error fault => exact Or.inr ⟨.store fault, by simp only [hwrite], by simp⟩
      | ok s' => exact Or.inl ⟨s', rfl, rfl, by simp only [hwrite]⟩

theorem overwriteFile_ok_iff : (overwriteFile s path content).2 = .ok () ↔
    s.Clear path.parent ∧ s.at? (resolve s.cwd path) ≠ some .directory
      ∧ ¬OnWay s.cwd path.parent (resolve s.cwd path) := by
  rcases overwriteFile_cases s path content with
    ⟨s', hmade, hwrite, heq⟩ | ⟨fault, heq, hrefused⟩
  · rw [heq]
    have hwritable := (Store.makeParent_write_iff hmade _).mp ⟨s', hwrite⟩
    exact iff_of_true rfl ⟨Store.makeParent_ok_iff.mp hmade, hwritable⟩
  · rw [heq]
    refine iff_of_false (by simp) fun ⟨hclear, hwritable⟩ => ?_
    have hmade := Store.makeParent_ok_iff.mpr hclear
    obtain ⟨s', hwrite⟩ := (Store.makeParent_write_iff hmade _).mpr hwritable
    exact hrefused hmade s' hwrite

theorem replaceFile_ok_iff : (replaceFile s path content checked).2 = .ok () ↔
    Passes content checked ∧ path.endsInName = true
      ∧ (overwriteFile s path content).2 = .ok () := by
  by_cases h : path.endsInName = true ∧ Passes content checked
  · rw [replaceFile_eq_overwriteFile h.1 h.2, and_iff_right h.2, and_iff_right h.1]
  · obtain ⟨fault, hrefused⟩ := replaceFile_refused h
    rw [hrefused]
    refine iff_of_false (by simp) ?_
    rintro ⟨hpasses, hname, -⟩
    exact h ⟨hname, hpasses⟩

/-! ## How writing ends -/

theorem replaceFile_ends (s : Store) (path : Path) (content : String) (checked : Bool) :
    SaveEnds path (Text.Utf8.encode content) s (replaceFile s path content checked).1
      (replaceFile s path content checked).2 := by
  by_cases h : path.endsInName = true ∧ Passes content checked
  · rw [replaceFile_eq_overwriteFile h.1 h.2]
    exact overwriteFile_ends s path content
  · obtain ⟨fault, hrefused⟩ := @replaceFile_refused s path content checked h
    rw [hrefused]
    exact .refused (Store.makeParent_grows s path)

example : (replaceFile (.empty []) (Path.ofLocation ["out", "a.ts"]) "export const a;" true).1.at?
    ["out", "a.ts"] = some (.file (Text.Utf8.encode "export const a;")) := by
  decide +kernel

/-- What is there and must not be replaced is left alone. -/
theorem saveOutput_closed {output : OutputSettings}
    (hclosed : output.mode = .error ∧ s.pathExists path = true) :
    saveOutput s path raw (.proper output)
      = (s, .fail (.outputExists path.display)) := by
  simp only [saveOutput, Section.get, if_pos hclosed]

/-- Otherwise, saving is writing in one of the two ways. -/
theorem saveOutput_open {output : OutputSettings}
    (hopen : ¬(output.mode = .error ∧ s.pathExists path = true)) :
    (saveOutput s path raw (.proper output)).1
        = (if output.atomicWrite.truthy then replaceFile s path raw true
          else overwriteFile s path raw).1
      ∧ (saveOutput s path raw (.proper output)).2.result
        = (if output.atomicWrite.truthy then replaceFile s path raw true
          else overwriteFile s path raw).2 := by
  simp only [saveOutput, Section.get, if_neg hopen]
  generalize (if output.atomicWrite.truthy then replaceFile s path raw true
    else overwriteFile s path raw) = saved
  obtain ⟨t, result⟩ := saved
  cases result with
  | error fault => exact ⟨trivial, rfl⟩
  | ok _ => exact ⟨trivial, rfl⟩

/-- Saving the output writes it, or leaves nothing but directories on the way to it. -/
theorem saveOutput_ends (s : Store) (path : Path) (content : String)
    (output : Section OutputSettings) :
    SaveEnds path (Text.Utf8.encode content) s (saveOutput s path content output).1
      (saveOutput s path content output).2.result := by
  cases output with
  | improper value => exact .refused (.refl _ s)
  | proper output =>
      by_cases hopen : output.mode = .error ∧ s.pathExists path = true
      · rw [saveOutput_closed hopen]
        exact .refused (.refl _ s)
      · obtain ⟨hstore, hresult⟩ := @saveOutput_open s path content output hopen
        rw [hstore, hresult]
        split
        · exact replaceFile_ends s path content true
        · exact overwriteFile_ends s path content

theorem saveOutput_puts {output : Section OutputSettings}
    (h : (saveOutput s path content output).2.result = .ok ()) :
    Puts path (Text.Utf8.encode content) s (saveOutput s path content output).1 := by
  have hends := saveOutput_ends s path content output
  rw [h] at hends
  cases hends with
  | written hputs => exact hputs

/-! ## All or nothing -/

/-- A place holds the same file as before, or none as before. -/
def SameFile (s s' : Store) (location : Location) : Prop :=
  ∀ content, s'.at? location = some (.file content) ↔ s.at? location = some (.file content)

theorem sameFile_of_replaceFile_error {fault : Fault}
    (h : (replaceFile s path raw checked).2 = .error fault) (location : Location) :
    SameFile s (replaceFile s path raw checked).1 location := by
  cases hencode : raw.encode with
  | error _ =>
      rw [replaceFile_of_encode_error hencode]
      exact fun _ => ((Store.makeParent_grows s path).kept location).file_iff
  | ok _ =>
      obtain ⟨text, rfl, -⟩ := RawText.encode_eq_ok_iff.mp hencode
      have hends := replaceFile_ends s path text checked
      rw [h] at hends
      cases hends with
      | refused hgrows => exact fun _ => (hgrows.kept location).file_iff

/-- Replacing a file is done as a whole or not at all. If it succeeds, the file at the path has the
octets of the content, the content has passed the checks that were wanted, and no other place has
another file than before, or a file more or less. If it is refused, this holds of all places. It is
refused when the content has no octets, when it fails the checks, when a file stands on the way to
the directory of the path, and when the path leads to a directory, or does not end in a name, as
only paths to directories do. -/
theorem replaceFile_atomic (s : Store) (path : Path) (content : RawText) (checked : Bool) :
    ((replaceFile s path content checked).2 = .ok () →
      (∃ octets, content.encode = .ok octets
          ∧ (replaceFile s path content checked).1.read path = .ok octets)
        ∧ Passes content checked
        ∧ ∀ location, location ≠ resolve s.cwd path →
          SameFile s (replaceFile s path content checked).1 location)
      ∧ (∀ fault, (replaceFile s path content checked).2 = .error fault →
        ∀ location, SameFile s (replaceFile s path content checked).1 location)
      ∧ ((replaceFile s path content checked).2 = .ok () ↔
        (∃ octets, content.encode = .ok octets) ∧ Passes content checked ∧ s.Clear path.parent
          ∧ path.endsInName = true ∧ s.at? (resolve s.cwd path) ≠ some .directory
          ∧ ¬OnWay s.cwd path.parent (resolve s.cwd path)) := by
  have hkept : ∀ fault, (replaceFile s path content checked).2 = .error fault →
      ∀ location, SameFile s (replaceFile s path content checked).1 location :=
    fun _ herror => sameFile_of_replaceFile_error herror
  cases hencode : content.encode with
  | error fault =>
      have hnot : (replaceFile s path content checked).2 ≠ .ok () := by
        rw [replaceFile_of_encode_error hencode]
        cases (s.makeParent path).2 <;> simp
      exact ⟨fun hok => absurd hok hnot, hkept, iff_of_false hnot fun h => by simp at h⟩
  | ok octets =>
      obtain ⟨text, rfl, rfl⟩ := RawText.encode_eq_ok_iff.mp hencode
      have hends := replaceFile_ends s path text checked
      have hdone := @replaceFile_ok_iff s path text checked
      rw [overwriteFile_ok_iff] at hdone
      refine ⟨fun hok => ?_, hkept, ?_⟩
      · refine ⟨⟨_, rfl, ?_⟩, (hdone.mp hok).1, fun location hother content' => ?_⟩
        · rw [hok] at hends
          cases hends with
          | written hputs => exact hputs.writes.read
        · rw [hok] at hends
          cases hends with
          | written hputs =>
              obtain ⟨place, hplace, -, hrest⟩ := hputs.writes
              rw [← hputs.keeps.cwd, ← Store.eq_resolve_of_locate hplace] at hother
              exact (hrest location hother).file_iff
      · rw [hdone]
        simp only [Except.ok.injEq, exists_eq', true_and]
        tauto

/-- A directory with one file in it. -/
def workshop : Store :=
  ((Store.empty []).put ["out"] .directory).put ["out", "a.ts"]
    (.file (Text.Utf8.encode "export const a;"))

theorem workshop_atomic :
    (replaceFile workshop (.ofString "out/a.ts") "export const b;" true).2 = .ok ()
      ∧ (replaceFile workshop (.ofString "out/a.ts") "export const b;" true).1.read
        (.ofString "out/a.ts") = .ok (Text.Utf8.encode "export const b;")
      ∧ (replaceFile workshop (.ofString "out/b.ts") "const b;" true).2
        = .error (.check .noExports)
      ∧ ∀ location, SameFile workshop
        (replaceFile workshop (.ofString "out/b.ts") "const b;" true).1 location := by
  obtain ⟨hdone, -, -⟩ :=
    replaceFile_atomic workshop (.ofString "out/a.ts") "export const b;" true
  obtain ⟨-, hrefused, -⟩ := replaceFile_atomic workshop (.ofString "out/b.ts") "const b;" true
  have hok : (replaceFile workshop (.ofString "out/a.ts") "export const b;" true).2 = .ok () := by
    decide +kernel
  have hfault : (replaceFile workshop (.ofString "out/b.ts") "const b;" true).2
      = .error (.check .noExports) := by
    decide +kernel
  obtain ⟨⟨octets, hencode, hread⟩, -, -⟩ := hdone hok
  rw [RawText.encode_ofString] at hencode
  obtain rfl := Except.ok.inj hencode
  exact ⟨hok, hread, hfault, hrefused _ hfault⟩

end SchemaGen.Files

import SchemaGen.Proofs.Storage

/-!
# Places and their names

A place is a list of names from the root down, and a path is written by
putting slashes between them. Both are the same as long as the names are such
that directories have (`IsName`): reading what a path shows gives its parts
back (`parts_ofString_display`), and so its last name is the last name of the
place. A place that a word leads to is `Proper`, because reading the word
drops what is no name and following it takes the two dots away
(`proper_resolve`).
-/

namespace SchemaGen.Files

/-- The names that the entries of a directory can have. -/
def IsName (name : String) : Prop :=
  name ≠ "" ∧ name ≠ "." ∧ name ≠ ".." ∧ '/' ∉ name.toList

instance (name : String) : Decidable (IsName name) :=
  inferInstanceAs (Decidable (name ≠ "" ∧ name ≠ "." ∧ name ≠ ".." ∧ '/' ∉ name.toList))

/-- A place that is made of names. -/
def Proper (location : Location) : Prop := ∀ name ∈ location, IsName name

instance (location : Location) : Decidable (Proper location) :=
  inferInstanceAs (Decidable (∀ name ∈ location, IsName name))

variable {location : Location}

theorem Proper.dots_not_mem (h : Proper location) : ".." ∉ location :=
  fun hmem => (h _ hmem).2.2.1 rfl

/-! ## Paths as they are shown -/

theorem pieces_of_not_mem {s : List Char} (h : '/' ∉ s) : pieces s = [s] := by
  induction s with
  | nil => rfl
  | cons c s ih =>
      obtain ⟨hc, hs⟩ : '/' ≠ c ∧ '/' ∉ s := by simpa using h
      rw [pieces, if_neg hc.symm, ih hs]

theorem pieces_ne_nil (s : List Char) : pieces s ≠ [] := by
  cases s with
  | nil => simp [pieces]
  | cons c s =>
      unfold pieces
      split
      · simp
      · split <;> simp

/-- A slash ends a piece. -/
theorem pieces_append_slash (front rest : List Char) :
    pieces (front ++ '/' :: rest) = pieces front ++ pieces rest := by
  induction front with
  | nil => rfl
  | cons c front ih =>
      rw [List.cons_append, pieces, ih, pieces]
      split
      · rfl
      · cases hpieces : pieces front with
        | nil => exact absurd hpieces (pieces_ne_nil front)
        | cons piece others => rfl

theorem pieces_intercalate {names : List String} (hne : names ≠ [])
    (h : ∀ name ∈ names, '/' ∉ name.toList) :
    pieces ("/".intercalate names).toList = names.map String.toList := by
  induction names with
  | nil => exact absurd rfl hne
  | cons name names ih =>
      obtain ⟨hname, hnames⟩ := List.forall_mem_cons.mp h
      cases names with
      | nil =>
          rw [String.intercalate_singleton]
          exact pieces_of_not_mem hname
      | cons next names =>
          rw [String.intercalate_cons_cons, String.toList_append, String.toList_append,
            List.append_assoc]
          show pieces (name.toList ++ '/' :: ("/".intercalate (next :: names)).toList) = _
          rw [pieces_append_slash, pieces_of_not_mem hname, ih (by simp) hnames]
          rfl

/-- The text of a path to a place writes the names of the place. -/
theorem parts_ofString_display (h : Proper location) :
    (Path.ofString (Path.ofLocation location).display).parts = location := by
  have hpieces : (pieces (Path.ofLocation location).display.toList).map String.ofList
      = "" :: (if location = [] then [""] else location) := by
    show (pieces ("/" ++ "/".intercalate location).toList).map String.ofList = _
    rw [String.toList_append]
    show (pieces ('/' :: ("/".intercalate location).toList)).map String.ofList = _
    rw [pieces, if_pos rfl, List.map_cons, String.ofList_nil]
    split
    · rename_i hnil
      rw [hnil]
      rfl
    · rename_i hne
      rw [pieces_intercalate hne fun name hname => (h name hname).2.2.2, List.map_map]
      simp
  rw [Path.ofString]
  dsimp only
  rw [hpieces, List.filter_cons_of_neg (by decide)]
  split
  · rename_i hnil
    rw [hnil]
    rfl
  · refine List.filter_eq_self.mpr fun name hname => ?_
    exact decide_eq_true ⟨(h name hname).1, (h name hname).2.1⟩

theorem lastName_display (h : Proper location) :
    lastName (Path.ofLocation location).display = location.getLast?.getD "" := by
  rw [lastName, Path.name, parts_ofString_display h]

theorem lastName_of_name {base : String} (hne : base ≠ "") (hdot : base ≠ ".")
    (hslash : '/' ∉ base.toList) : lastName base = base := by
  rw [lastName, Path.name, Path.ofString]
  dsimp only
  rw [pieces_of_not_mem hslash]
  simp [hne, hdot]

/-- What follows the last slash is the last name, unless it is empty or a single dot. -/
theorem lastName_append {base : String} (hne : base ≠ "") (hdot : base ≠ ".")
    (hslash : '/' ∉ base.toList) (dir : String) : lastName (dir ++ "/" ++ base) = base := by
  have hpieces : pieces (dir ++ "/" ++ base).toList = pieces dir.toList ++ [base.toList] := by
    rw [String.append_assoc, String.toList_append, String.toList_append]
    show pieces (dir.toList ++ '/' :: base.toList) = _
    rw [pieces_append_slash, pieces_of_not_mem hslash]
  rw [lastName, Path.name, Path.ofString]
  dsimp only
  rw [hpieces, List.map_append, List.filter_append]
  simp [hne, hdot]

/-! ## Places that words lead to -/

theorem proper_resolve {cwd : Location} (hcwd : Proper cwd) (word : String) :
    Proper (resolve cwd (Path.ofString word)) := by
  have hstart : ∀ slashes : Nat, Proper (if slashes = 0 then cwd else []) := by
    intro slashes
    split
    · exact hcwd
    · exact fun _ hmem => absurd hmem (List.not_mem_nil)
  have hsteps : ∀ parts start : Location,
      (∀ part ∈ parts, part ≠ "" ∧ part ≠ "." ∧ '/' ∉ part.toList) → Proper start →
      Proper (parts.foldl follow start) := by
    intro parts
    induction parts with
    | nil => exact fun start _ hstart => hstart
    | cons part parts ih =>
        intro start hparts hstart
        obtain ⟨⟨hempty, hdot, hslash⟩, hparts⟩ := List.forall_mem_cons.mp hparts
        refine ih _ hparts fun name hname => ?_
        unfold follow at hname
        split at hname
        · exact hstart name (List.dropLast_subset _ hname)
        · rename_i hdots
          rcases List.mem_append.mp hname with hname | hname
          · exact hstart name hname
          · rw [List.mem_singleton.mp hname]
            exact ⟨hempty, hdot, hdots, hslash⟩
  exact hsteps _ _ (fun part hpart => Path.mem_parts_ofString hpart) (hstart _)

end SchemaGen.Files

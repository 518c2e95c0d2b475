/-!
# Paths

A path is the slashes at its start and the parts between the others, less empty parts and single
dots. Two dots are kept as a part: only walking the file store says where they lead.
-/

namespace SchemaGen.Files

/-- The pieces of a text between slashes. -/
def pieces : List Char → List (List Char)
  | [] => [[]]
  | c :: rest =>
    if c = '/' then [] :: pieces rest
    else
      match pieces rest with
      | [] => [[c]]
      | piece :: others => (c :: piece) :: others

theorem not_mem_pieces {s piece : List Char} (h : piece ∈ pieces s) : '/' ∉ piece := by
  induction s generalizing piece with
  | nil => simp_all [pieces]
  | cons c rest ih =>
    unfold pieces at h
    split at h
    · rcases List.mem_cons.1 h with rfl | h
      · simp
      · exact ih h
    · rename_i hc
      split at h
      · simp_all [Ne.symm hc]
      · rename_i first others hp
        rcases List.mem_cons.1 h with rfl | h
        · simp [Ne.symm hc, ih (hp ▸ List.mem_cons_self)]
        · exact ih (hp ▸ List.mem_cons_of_mem _ h)

/-- A path: how many slashes it starts with (exactly two are kept, more count as one), and its
parts. -/
structure Path where
  slashes : Nat
  parts : List String
  deriving DecidableEq, Repr

namespace Path

/-- The path that a text writes. -/
def ofString (s : String) : Path :=
  let slashes := (s.toList.takeWhile (· == '/')).length
  let parts := ((pieces s.toList).map String.ofList).filter fun part => part ≠ "" ∧ part ≠ "."
  ⟨if slashes = 2 then 2 else min slashes 1, parts⟩

/-- Every part of a path that a text writes is a name or two dots. -/
theorem mem_parts_ofString {s part : String} (h : part ∈ (ofString s).parts) :
    part ≠ "" ∧ part ≠ "." ∧ '/' ∉ part.toList := by
  simp only [ofString, List.mem_filter, List.mem_map, decide_eq_true_eq] at h
  obtain ⟨⟨piece, hp, rfl⟩, hn, hd⟩ := h
  exact ⟨hn, hd, by simpa using not_mem_pieces hp⟩

/-- The text of a path; a path of nothing is a single dot. -/
def display (p : Path) : String :=
  if p.slashes = 0 ∧ p.parts = [] then "."
  else String.ofList (List.replicate p.slashes '/') ++ "/".intercalate p.parts

/-- The last part, or the empty text. -/
def name (p : Path) : String := p.parts.getLast?.getD ""

/-- The path less its last part. -/
def parent (p : Path) : Path := { p with parts := p.parts.dropLast }

/-- The path of an entry of the directory at this path. -/
def child (p : Path) (name : String) : Path := { p with parts := p.parts ++ [name] }

/-- Whether the last part names an entry of a directory, which two dots do not. -/
def endsInName (p : Path) : Bool := p.parts.getLast?.any (· != "..")

end Path

/-- A place in the file store: the names from the root down. -/
abbrev Location := List String

/-- The last name of a text read as a path. -/
def lastName (s : String) : String := (Path.ofString s).name

/-- One part of a path followed by name alone: two dots go back up. -/
def follow (location : Location) (part : String) : Location :=
  if part = ".." then location.dropLast else location ++ [part]

/-- Where a path leads by its names alone, from a working directory. -/
def resolve (cwd : Location) (p : Path) : Location :=
  p.parts.foldl follow (if p.slashes = 0 then cwd else [])

/-- The path of a location, from the root. -/
def Path.ofLocation (location : Location) : Path := ⟨1, location⟩

end SchemaGen.Files

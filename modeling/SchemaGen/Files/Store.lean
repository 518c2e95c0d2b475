import SchemaGen.Files.Fault
import SchemaGen.Files.Path

/-!
# The file store

Files and directories by their place, and the working directory from which paths are followed. A
path is followed step by step, and every place that is stepped from has to be a directory. The
operations say what they refuse; `at?_put` and `at?_remove` say what they change, and
`at?_temporary` that the place for a temporary file is free.

There are files and directories and nothing else: no links, so that every file has one place, and
no permissions, so that whatever is there can be read, written and replaced. Names may be as long
as they like, and there is always room.
-/

namespace SchemaGen.Files

/-- What is at a place. -/
inductive Node where
  | file (content : List UInt8)
  | directory
  deriving DecidableEq

/-- Files and directories by their distinct places. The root is always a directory. -/
structure Store where
  nodes : List (Location × Node)
  cwd : Location
  distinct : (nodes.map Prod.fst).Nodup

namespace Store

/-- A store in which there is nothing yet. -/
def empty (cwd : Location) : Store := ⟨[], cwd, List.nodup_nil⟩

/-- What is at a place. -/
def at? (s : Store) (location : Location) : Option Node :=
  if location = [] then some .directory
  else (s.nodes.find? fun e => e.1 = location).map Prod.snd

/-- Nodes with one more, in the stead of the node at its place. -/
def putNode (nodes : List (Location × Node)) (location : Location) (node : Node) :
    List (Location × Node) :=
  if nodes.any (·.1 = location) then
    nodes.map fun e => if e.1 = location then (location, node) else e
  else nodes ++ [(location, node)]

theorem nodup_putNode {nodes : List (Location × Node)} (h : (nodes.map Prod.fst).Nodup)
    (location : Location) (node : Node) :
    ((putNode nodes location node).map Prod.fst).Nodup := by
  unfold putNode
  split
  · have : Prod.fst ∘ (fun e : Location × Node => if e.1 = location then (location, node) else e) =
        Prod.fst := by
      funext e
      by_cases he : e.1 = location <;> simp [he]
    rwa [List.map_map, this]
  · rename_i hn
    rw [List.map_append, List.nodup_append]
    refine ⟨h, by simp, ?_⟩
    intro a ha b hb
    obtain ⟨e, he, rfl⟩ := List.mem_map.1 ha
    rw [List.mem_singleton.1 hb]
    exact fun heq => hn (List.any_eq_true.2 ⟨e, he, by simpa using heq⟩)

/-- Puts a node at a place, in the stead of what is there. -/
def put (s : Store) (location : Location) (node : Node) : Store :=
  ⟨putNode s.nodes location node, s.cwd, nodup_putNode s.distinct location node⟩

theorem nodes_put (s : Store) (location : Location) (node : Node) :
    (s.put location node).nodes = putNode s.nodes location node := rfl

/-- Takes away what is at a place. -/
def remove (s : Store) (location : Location) : Store :=
  ⟨s.nodes.filter fun e => e.1 ≠ location, s.cwd,
    s.distinct.sublist (List.filter_sublist.map Prod.fst)⟩

/-- The names of the entries of a directory. -/
def entryNames (s : Store) (location : Location) : List String :=
  s.nodes.filterMap fun e =>
    if e.1 ≠ [] ∧ e.1.dropLast = location then e.1.getLast? else none

/-! ## Following paths -/

/-- One step from a place, which has to be a directory. -/
def step (s : Store) (path : Path) (location : Location) (part : String) :
    Except StoreFault Location :=
  match s.at? location with
  | some .directory => .ok (follow location part)
  | some (.file _) => .error (.notDirectory path.display)
  | none => .error (.notFound path.display)

/-- The place of a path; what is there is not looked at. -/
def locate (s : Store) (path : Path) : Except StoreFault Location :=
  path.parts.foldlM (s.step path) (if path.slashes = 0 then s.cwd else [])

/-- What is at a path. -/
def node? (s : Store) (path : Path) : Option Node :=
  match s.locate path with
  | .ok location => s.at? location
  | .error _ => none

/-- Whether there is something at a path. -/
def pathExists (s : Store) (path : Path) : Bool := (s.node? path).isSome

/-- Whether there is a directory at a path. -/
def isDirectory (s : Store) (path : Path) : Bool := s.node? path = some .directory

/-- Whether there is a file at a path. -/
def isFile (s : Store) (path : Path) : Bool :=
  match s.node? path with
  | some (.file _) => true
  | _ => false

/-! ## Reading and writing -/

/-- The content of the file at a path. -/
def read (s : Store) (path : Path) : Except StoreFault (List UInt8) := do
  match s.at? (← s.locate path) with
  | some (.file content) => return content
  | some .directory => .error (.isDirectory path.display)
  | none => .error (.notFound path.display)

/-- Writes a file in place. -/
def write (s : Store) (path : Path) (content : List UInt8) : Except StoreFault Store := do
  let location ← s.locate path
  match s.at? location with
  | some .directory => .error (.isDirectory path.display)
  | _ => return s.put location (.file content)

/-- Moves what is at a place to a path, in the stead of a file that is there. -/
def moveTo (s : Store) (source : Location) (path : Path) : Except StoreFault Store := do
  if !path.endsInName then .error (.busy path.display)
  let location ← s.locate path
  match s.at? source, s.at? location with
  | none, _ => .error (.notFound path.display)
  | _, some .directory => .error (.isDirectory path.display)
  | some node, _ => return (s.remove source).put location node

/-- Makes a directory where nothing is. -/
def makeDirectory (s : Store) (path : Path) : Except StoreFault Store := do
  let location ← s.locate path
  match s.at? location with
  | some _ => .error (.exists path.display)
  | none => return s.put location .directory

/-- Makes a directory with the directories above it that are missing; `depth` bounds how many. A
directory that is there already is as good as a new one. What was made stays when a later step is
refused. -/
def makeDirectories (s : Store) (path : Path) : Nat → Store × Except StoreFault Unit
  | 0 =>
    match s.makeDirectory path with
    | .ok s => (s, .ok ())
    | .error fault => (s, if s.isDirectory path then .ok () else .error fault)
  | depth + 1 =>
    match s.makeDirectory path with
    | .ok s => (s, .ok ())
    | .error (.notFound missing) =>
      if path.parts = [] then (s, .error (.notFound missing))
      else
        match makeDirectories s path.parent depth with
        | (s, .error fault) => (s, .error fault)
        | (s, .ok ()) => makeDirectories s path 0
    | .error fault => (s, if s.isDirectory path then .ok () else .error fault)

/-- The directory in which the file at a path lies, made where it is missing. -/
def makeParent (s : Store) (path : Path) : Store × Except StoreFault Unit :=
  s.makeDirectories path.parent path.parts.length

/-! ## Temporary files -/

/-- The length of the longest name in the store. -/
def longestName (s : Store) : Nat :=
  s.nodes.foldl (fun n e => max n (e.1.getLast?.getD "").length) 0

/-- A name for a temporary file: hidden, with the name of the file that it will become, and longer
than every name in the store, hence new. -/
def temporaryName (s : Store) (name : String) : String :=
  "." ++ name ++ "." ++ String.ofList (List.replicate (s.longestName + 1) 'x') ++ ".tmp"

theorem length_le_longestName {s : Store} {e : Location × Node} (h : e ∈ s.nodes) :
    (e.1.getLast?.getD "").length ≤ s.longestName := by
  have start : ∀ (nodes : List (Location × Node)) (n : Nat),
      n ≤ nodes.foldl (fun n e => max n (e.1.getLast?.getD "").length) n := by
    intro nodes
    induction nodes with
    | nil => exact fun n => Nat.le_refl n
    | cons e nodes ih => exact fun n => Nat.le_trans (Nat.le_max_left ..) (ih _)
  have : ∀ (nodes : List (Location × Node)) (n : Nat), e ∈ nodes →
      (e.1.getLast?.getD "").length ≤
        nodes.foldl (fun n e => max n (e.1.getLast?.getD "").length) n := by
    intro nodes
    induction nodes with
    | nil => simp
    | cons f nodes ih =>
      intro n hm
      rcases List.mem_cons.1 hm with rfl | hm
      · exact Nat.le_trans (Nat.le_max_right ..) (start nodes _)
      · exact ih _ hm
  exact this s.nodes 0 h

/-- There is nothing yet at the place for a temporary file. -/
theorem at?_temporary (s : Store) (directory : Location) (name : String) :
    s.at? (directory ++ [s.temporaryName name]) = none := by
  rw [at?, if_neg (by simp), Option.map_eq_none_iff, List.find?_eq_none]
  intro e he
  have hl := length_le_longestName he
  simp only [decide_eq_true_eq]
  intro heq
  rw [heq, List.getLast?_concat, Option.getD_some, temporaryName] at hl
  simp at hl
  omega

/-! ## What the changes change -/

theorem at?_eq_find? {s : Store} {location : Location} (h : location ≠ []) :
    s.at? location = (s.nodes.find? fun e => e.1 = location).map Prod.snd := by
  simp [at?, h]

theorem at?_put {s : Store} {location other : Location} {node : Node} (h : location ≠ []) :
    (s.put location node).at? other = if other = location then some node else s.at? other := by
  by_cases ho : other = []
  · subst ho
    simp [at?, Ne.symm h]
  rw [at?_eq_find? ho, at?_eq_find? ho, nodes_put]
  unfold putNode
  by_cases hp : s.nodes.any (·.1 = location)
  · rw [if_pos hp]
    simp only [List.find?_map, Function.comp_def]
    by_cases he : other = location
    · subst he
      obtain ⟨e, hm, hl⟩ := List.any_eq_true.1 hp
      simp only [if_true]
      have : (s.nodes.find? fun x =>
          (if x.1 = other then (other, node) else x).1 = other).isSome := by
        rw [List.find?_isSome]
        exact ⟨e, hm, by simp [of_decide_eq_true hl]⟩
      obtain ⟨x, hx⟩ := Option.isSome_iff_exists.1 this
      have hx' := List.find?_some hx
      rw [hx]
      by_cases hxo : x.1 = other <;> simp_all
    · simp only [if_neg he]
      have hs : (fun x : Location × Node =>
          decide ((if x.1 = location then (location, node) else x).1 = other)) =
          fun x => decide (x.1 = other) := by
        funext x
        by_cases hx : x.1 = location <;> simp [hx]
      rw [hs]
      cases hf : s.nodes.find? fun x => decide (x.1 = other) with
      | none => rfl
      | some x =>
        have hx := List.find?_some hf
        have : x.1 ≠ location := by
          simp only [decide_eq_true_eq] at hx
          exact hx ▸ he
        simp [this]
  · rw [if_neg hp]
    simp only [List.find?_append, List.find?_cons, List.find?_nil]
    by_cases he : other = location
    · subst he
      have : s.nodes.find? (fun e => decide (e.1 = other)) = none := by
        rw [List.find?_eq_none]
        intro x hx hxo
        exact hp (List.any_eq_true.2 ⟨x, hx, hxo⟩)
      simp [this]
    · simp [he, Ne.symm he]

theorem at?_remove {s : Store} {location other : Location} (h : location ≠ []) :
    (s.remove location).at? other = if other = location then none else s.at? other := by
  by_cases ho : other = []
  · subst ho
    simp [at?, Ne.symm h]
  rw [at?_eq_find? ho, at?_eq_find? ho]
  simp only [remove, List.find?_filter]
  by_cases he : other = location
  · subst he
    have : s.nodes.find? (fun x => decide (decide (x.1 ≠ other) = true ∧
        decide (x.1 = other) = true)) = none := by
      rw [List.find?_eq_none]
      intro x _
      simp
    rw [this]
    simp
  · rw [if_neg he]
    congr 2
    funext x
    by_cases hx : x.1 = other
    · simp [hx, he]
    · simp [hx]

end Store

end SchemaGen.Files

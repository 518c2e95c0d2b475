import SchemaGen.Model.Definition
import SchemaGen.Settings
import SchemaGen.Traced

/-!
# The hierarchy of types

The types of a model form a tree. Every type hangs under the parent that it extends, and the types
without a parent under a root without a name. The tree is the list of its types with their parents
in the order of insertion, so the children of a type are in that order too. Inserting a type first
climbs from it to the nearest type that is in the tree already, or to one without a parent, and
then attaches the types of that chain from the top down; parents may therefore come after their
children in the model. A chain that leaves the model or comes back to itself is a fault, and
nothing is attached.

The list holds each link once. `SchemaGen.LinkedTree` is the same tree as nodes that know their
children and their parent, with an index of the nodes beside them.

`names_attach` and `children_attach` say what attaching does to the views of a tree, and
`parent?_attach_of_mem` and `parent?_attach_of_not_mem` what it does to the parent of a type.
-/

namespace SchemaGen

open SchemaGen.Model (SchemaFault)

/-- Types with their parents, parents first. -/
structure Hierarchy where
  parents : Table (Option String)
  deriving DecidableEq

namespace Hierarchy

/-- The tree of no types. -/
def empty : Hierarchy := ⟨[]⟩

/-- The types of a tree, in the order of insertion. -/
def names (t : Hierarchy) : List String := Table.keys t.parents

/-- The number of types. -/
def size (t : Hierarchy) : Nat := t.parents.length

/-- Whether a type is in the tree. -/
def contains (t : Hierarchy) (name : String) : Bool := Table.contains t.parents name

/-- The parent of a type in the tree: `none` inside for a type under the root. -/
def parent? (t : Hierarchy) (name : String) : Option (Option String) :=
  Table.get? t.parents name

/-- The children of a type, or of the root, in the order of insertion. -/
def children (t : Hierarchy) (parent : Option String) : List String :=
  (t.parents.filter fun e => e.2 = parent).map Prod.fst

/-! ## Inserting -/

/-- The parent that the model gives a type. -/
def modelParent (m : Model) (name : String) : Option String :=
  (m.get? name).bind Model.Definition.parent?

/-- The types from `current` upwards that are not present, lowest first, after the types climbed
through so far. -/
def climb (m : Model) (present : String → Bool) :
    Nat → List String → String → Except Fault (List String)
  | 0, climbed, _ => .ok climbed
  | fuel + 1, climbed, current =>
    if present current then .ok climbed
    else if current ∈ climbed then
      .error (.schema (.cyclicInheritance current (climbed ++ [current])))
    else
      match m.get? current with
      | none => .error (.unknownType current)
      | some definition =>
        match definition.parent? with
        | none => .ok (climbed ++ [current])
        | some parent =>
          if m.contains parent then climb m present fuel (climbed ++ [current]) parent
          else .error (.schema (.missingParent current parent))

/-- The types that inserting a type attaches, lowest first. A chain without repetition is no longer
than the model. -/
def missing (m : Model) (t : Hierarchy) (name : String) : Except Fault (List String) :=
  climb m t.contains (m.names.length + 1) [] name

/-- Attaches types from the top down. -/
def attach (m : Model) (t : Hierarchy) (chain : List String) : Hierarchy :=
  ⟨t.parents ++ chain.reverse.map fun name => (name, modelParent m name)⟩

@[simp] theorem names_attach (m : Model) (t : Hierarchy) (chain : List String) :
    (t.attach m chain).names = t.names ++ chain.reverse := by
  simp [names, attach, Table.keys, Function.comp_def]

theorem children_attach (m : Model) (t : Hierarchy) (chain : List String)
    (parent : Option String) :
    (t.attach m chain).children parent =
      t.children parent ++ chain.reverse.filter fun name => modelParent m name = parent := by
  simp [children, attach, List.filter_map, Function.comp_def]

theorem parent?_attach_of_mem {m : Model} {t : Hierarchy} {chain : List String} {name : String}
    (ht : name ∉ t.names) (hc : name ∈ chain) :
    (t.attach m chain).parent? name = some (modelParent m name) := by
  rw [parent?, attach, Table.get?_append_of_not_mem ht]
  exact Table.get?_map_self (modelParent m) (List.mem_reverse.2 hc)

theorem parent?_attach_of_not_mem {m : Model} {t : Hierarchy} {chain : List String}
    {name : String} (h : name ∉ chain) : (t.attach m chain).parent? name = t.parent? name := by
  rw [parent?, attach, Table.get?_append_left]
  · rfl
  · simpa [Table.keys, Function.comp_def] using h

/-- Inserts a type with the parents that are not in the tree yet. -/
def insert (m : Model) (t : Hierarchy) (name : String) : Traced Hierarchy :=
  match missing m t name with
  | .error fault => .fail fault
  | .ok chain =>
    ⟨chain.reverse.map fun name => .inserted name (modelParent m name), .ok (t.attach m chain)⟩

/-- The tree of all types of a model, inserted in model order. -/
def ofModel (m : Model) : Traced Hierarchy := m.names.foldlM (insert m) empty

/-! ## Looking around -/

/-- Siblings in the order in which they are visited. -/
def arrange (order : SiblingOrder) (names : List String) : List String :=
  match order with
  | .discovery => names
  | .name => names.mergeSort fun a b => decide (a ≤ b)

/-- Visits the types on a stack: the topmost first, then its children, then the rest. -/
def visit (t : Hierarchy) (order : SiblingOrder) : Nat → List String → List String
  | 0, _ => []
  | _, [] => []
  | fuel + 1, name :: stack =>
    name :: visit t order fuel (arrange order (t.children (some name)) ++ stack)

/-- Every type, parents before their descendants. -/
def walk (t : Hierarchy) (order : SiblingOrder) : List String :=
  visit t order t.size (arrange order (t.children none))

/-- The types from a parent upwards. -/
def upFrom (t : Hierarchy) : Nat → Option String → List String
  | 0, _ => []
  | _, none => []
  | fuel + 1, some name => name :: upFrom t fuel (t.parent? name).join

/-- The ancestors of a type, nearest first. -/
def ancestors (t : Hierarchy) (name : String) : Except Fault (List String) :=
  match t.parent? name with
  | none => .error (.unknownType name)
  | some parent => .ok (upFrom t t.size parent)

end Hierarchy

end SchemaGen

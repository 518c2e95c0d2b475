import SchemaGen.Hierarchy

/-!
# The hierarchy as linked nodes

The tree of types with all its links. A node has a name, the list of its children in the order in
which they were attached, and the node that it hangs under. Beside the nodes there is an index, in
which a name is looked up. Nodes are told apart by their numbers, in the order in which they came
to be. Number 0 is the root, which has no name and hangs under nothing.

Inserting a type climbs as in `Hierarchy.climb`, with the index to tell what is there, and then
changes the tree at hand one type at a time. A type looks up its parent in the index, becomes a node
under it, goes into the list of children of that node, and into the index. If a parent were missing
from the index, the work would stop there, with the types attached so far in the tree.
-/

namespace SchemaGen

/-- A node of a linked tree. -/
structure LinkedTree.Node where
  name : String
  children : List Nat
  parent : Option Nat
  deriving DecidableEq

/-- Nodes by their numbers, and the index from names to the numbers of nodes. -/
structure LinkedTree where
  nodes : List LinkedTree.Node
  index : Table Nat
  deriving DecidableEq

namespace LinkedTree

/-- The root alone. -/
def empty : LinkedTree := ⟨[⟨"", [], none⟩], []⟩

/-- The name of a node. -/
def name (t : LinkedTree) (i : Nat) : String := ((t.nodes[i]?).map Node.name).getD ""

/-- The children of a node. -/
def children (t : LinkedTree) (i : Nat) : List Nat := ((t.nodes[i]?).map Node.children).getD []

/-- The node that a node hangs under. -/
def parent? (t : LinkedTree) (i : Nat) : Option Nat := (t.nodes[i]?).bind Node.parent

/-- Whether a node is the root. -/
def isRoot (t : LinkedTree) (i : Nat) : Bool := t.parent? i = none ∧ t.name i = ""

/-- Whether a type is in the tree. -/
def contains (t : LinkedTree) (name : String) : Bool := t.index.contains name

/-- The number of types. -/
def size (t : LinkedTree) : Nat := t.index.length

/-! ## Inserting -/

/-- The node for a parent: the root if there is none, and otherwise the one in the index. -/
def place? (t : LinkedTree) : Option String → Option Nat
  | none => some 0
  | some parent => t.index.get? parent

/-- Hangs a new node under a node and enters it into the index. -/
def hang (t : LinkedTree) (name : String) (place : Nat) : LinkedTree where
  nodes :=
    t.nodes.modify place (fun node => { node with children := node.children ++ [t.nodes.length] })
      ++ [⟨name, [], some place⟩]
  index := t.index.set name t.nodes.length

/-- Attaches types one after the other. The tree that comes back is the one reached when the work
ends, in whatever way. -/
def attach (m : Model) : LinkedTree → List String → LinkedTree × Traced Unit
  | t, [] => (t, pure ())
  | t, name :: names =>
    let parent := Hierarchy.modelParent m name
    match t.place? parent with
    | none => (t, .fail (.unknownType (parent.getD "")))
    | some place =>
      let (after, rest) := attach m (t.hang name place) names
      (after, do
        .report (.inserted name parent)
        rest)

/-- The node of a type. -/
def find (t : LinkedTree) (name : String) : Except Fault Nat :=
  match t.index.get? name with
  | some i => .ok i
  | none => .error (.unknownType name)

/-- Inserts a type with the parents that are not in the tree yet, and gives its node. -/
def insert (m : Model) (t : LinkedTree) (name : String) : LinkedTree × Traced Nat :=
  match Hierarchy.climb m t.contains (m.names.length + 1) [] name with
  | .error fault => (t, .fail fault)
  | .ok chain =>
    let (after, attached) := attach m t chain.reverse
    (after, do
      attached
      after.find name)

/-- The tree of all types of a model, inserted in model order. -/
def ofModel (m : Model) : Traced LinkedTree :=
  m.names.foldlM (fun t name => do
    let (after, inserted) := t.insert m name
    let _ ← inserted
    return after) empty

/-! ## Looking around -/

/-- Siblings in the order in which they are visited. -/
def arrange (t : LinkedTree) (order : SiblingOrder) (siblings : List Nat) : List Nat :=
  match order with
  | .discovery => siblings
  | .name => siblings.mergeSort fun i j => decide (t.name i ≤ t.name j)

/-- Visits the nodes on a stack: the topmost first, then its children, then the rest. -/
def visit (t : LinkedTree) (order : SiblingOrder) : Nat → List Nat → List Nat
  | 0, _ => []
  | _, [] => []
  | fuel + 1, i :: stack => i :: visit t order fuel (t.arrange order (t.children i) ++ stack)

/-- Every node but the root, parents before their descendants. -/
def walk (t : LinkedTree) (order : SiblingOrder) : List Nat :=
  visit t order t.nodes.length (t.arrange order (t.children 0))

/-- The names from a node upwards, up to the root. -/
def upFrom (t : LinkedTree) : Nat → Option Nat → List String
  | 0, _ => []
  | _, none => []
  | fuel + 1, some i => if t.isRoot i then [] else t.name i :: upFrom t fuel (t.parent? i)

/-- The ancestors of a type, nearest first. -/
def ancestors (t : LinkedTree) (name : String) : Except Fault (List String) :=
  (t.find name).map fun i => t.upFrom t.nodes.length (t.parent? i)

end LinkedTree

end SchemaGen

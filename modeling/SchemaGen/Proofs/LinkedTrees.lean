import SchemaGen.LinkedTree
import SchemaGen.Proofs.Traversal

/-!
# Linked trees and tables

A linked tree holds every link three times: in the list of children of the
one node, in the link of the other to its parent, and, by way of the index,
in the name that is looked up to find either. Nothing but the steps that
build a tree keeps these apart or together.

`ofTable` is the linked tree in which they agree with a table of types and
parents. The root is node 0 and the types follow in the order of the table.
Hanging a type under the node of its parent leads from the image of a table
to the image of the table with one more entry (`hang_ofTable`), although it
changes one list of children, one link and the index in three places. From
this the loop that attaches a chain (`attach_ofTable`), a call of insertion
with whatever it ends in (`insert_ofTable`), lists of calls
(`insertAll_eq_ofTable`) and the tree of a whole model (`ofModel_refines`)
follow the table.
-/

namespace SchemaGen

namespace LinkedTree

open Hierarchy (modelParent Grown Missing)

variable {m : Model} {t : Hierarchy} {name : String} {label : Option String} {chain : List String}

/-! ## The image of a table -/

/-- What the nodes stand for: the root and then the types of a table. -/
def labels (t : Hierarchy) : List (Option String) := none :: t.names.map some

/-- The number of the node for the root or for a type. -/
def position (t : Hierarchy) (label : Option String) : Nat := (labels t).idxOf label

/-- The node for the root or for a type. -/
def nodeOf (t : Hierarchy) (label : Option String) : Node where
  name := label.getD ""
  children := (t.children label).map fun child => position t (some child)
  parent := (label.bind t.parent?).map (position t)

/-- The linked tree of a table. -/
def ofTable (t : Hierarchy) : LinkedTree where
  nodes := (labels t).map (nodeOf t)
  index := t.names.map fun name => (name, position t (some name))

@[simp] theorem keys_index (t : Hierarchy) : Table.keys (ofTable t).index = t.names := by
  simp [ofTable, Table.keys, Function.comp_def]

@[simp] theorem none_mem_labels : none ∈ labels t := List.mem_cons_self

@[simp] theorem some_mem_labels : some name ∈ labels t ↔ name ∈ t.names := by
  simp [labels]

@[simp] theorem length_labels : (labels t).length = t.names.length + 1 := by
  simp [labels]

theorem nodup_labels (h : t.names.Nodup) : (labels t).Nodup :=
  List.nodup_cons.mpr ⟨by simp, h.map fun _ _ => Option.some.inj⟩

theorem labels_attach : labels (t.attach m [name]) = labels t ++ [some name] := by
  simp [labels]

theorem position_none : position t none = 0 := by
  simp [position, labels]

theorem getElem?_position (h : label ∈ labels t) : (labels t)[position t label]? = some label :=
  List.getElem?_idxOf h

theorem position_getElem (h : t.names.Nodup) {i : Nat} (hi : i < (labels t).length) :
    position t (labels t)[i] = i :=
  (nodup_labels h).idxOf_getElem i hi

theorem position_inj {label' : Option String} (h : label ∈ labels t) :
    position t label = position t label' ↔ label = label' :=
  List.idxOf_inj h

theorem position_attach_of_mem (h : label ∈ labels t) :
    position (t.attach m [name]) label = position t label := by
  rw [position, labels_attach]
  exact List.idxOf_append_of_mem h

theorem position_attach_self (hnew : name ∉ t.names) :
    position (t.attach m [name]) (some name) = (labels t).length := by
  rw [position, labels_attach, List.idxOf_append_of_notMem (by simpa using hnew)]
  simp

/-! ## One type more -/

theorem mem_names_of_mem_children {child : String} (h : child ∈ t.children label) :
    child ∈ t.names := by
  obtain ⟨entry, hentry, rfl⟩ := List.mem_map.mp h
  exact List.mem_map_of_mem (List.mem_filter.mp hentry).1

theorem mem_labels_of_extends (h : ∀ parent, m.Extends name parent → parent ∈ t.names) :
    modelParent m name ∈ labels t := by
  cases hp : modelParent m name with
  | none => exact none_mem_labels
  | some parent => exact some_mem_labels.mpr (h parent hp)

theorem modelParent_mem_labels (ht : Grown m t) (h : name ∈ t.names) :
    modelParent m name ∈ labels t :=
  mem_labels_of_extends fun _ => ht.parent_mem h

theorem parent_mem_labels (ht : Grown m t) {parent : Option String}
    (h : label.bind t.parent? = some parent) : parent ∈ labels t := by
  obtain ⟨child, rfl, hparent⟩ := Option.bind_eq_some_iff.mp h
  have hmem : child ∈ t.names := by
    refine Table.get?_isSome.mp ?_
    rw [show Table.get? t.parents child = _ from hparent, Option.isSome_some]
  rw [ht.parent?_eq hmem] at hparent
  exact Option.some.inj hparent ▸ modelParent_mem_labels ht hmem

/-- A type more changes the nodes that were there in one place: the list of children of its
parent. -/
theorem nodeOf_attach (ht : Grown m t) (hnew : name ∉ t.names) (hlabel : label ∈ labels t) :
    nodeOf (t.attach m [name]) label
      = if label = modelParent m name then
          { nodeOf t label with children := (nodeOf t label).children ++ [(labels t).length] }
        else nodeOf t label := by
  have hold : (t.children label).map (fun child => position (t.attach m [name]) (some child))
      = (t.children label).map fun child => position t (some child) :=
    List.map_congr_left fun child hchild =>
      position_attach_of_mem (some_mem_labels.mpr (mem_names_of_mem_children hchild))
  have hlink : label.bind (t.attach m [name]).parent? = label.bind t.parent? := by
    cases label with
    | none => rfl
    | some old =>
        refine Hierarchy.parent?_attach_of_not_mem fun hmem => hnew ?_
        rw [← List.mem_singleton.mp hmem]
        exact some_mem_labels.mp hlabel
  have hparent : (label.bind t.parent?).map (position (t.attach m [name]))
      = (label.bind t.parent?).map (position t) :=
    Option.map_congr fun parent hp => position_attach_of_mem (parent_mem_labels ht hp)
  rw [nodeOf, nodeOf, hlink, hparent, Hierarchy.children_attach, List.map_append, hold]
  by_cases heq : label = modelParent m name
  · simp [heq, position_attach_self hnew]
  · simp [heq, Ne.symm heq]

/-- Nodes change where their number is the position of what they stand for. -/
theorem modify_position {nodes : Option String → Node} (f : Node → Node)
    (hdistinct : t.names.Nodup) (hlabel : label ∈ labels t) :
    ((labels t).map nodes).modify (position t label) f
      = (labels t).map fun other => if other = label then f (nodes other) else nodes other := by
  refine List.ext_getElem? fun i => ?_
  rw [List.getElem?_modify, List.getElem?_map, List.getElem?_map]
  cases hi : (labels t)[i]? with
  | none => simp
  | some other =>
      obtain ⟨hlt, rfl⟩ := List.getElem?_eq_some_iff.mp hi
      have hiff : position t label = i ↔ label = (labels t)[i] := by
        rw [← position_inj hlabel, position_getElem hdistinct hlt]
      by_cases heq : label = (labels t)[i]
      · simp [heq, position_getElem hdistinct hlt]
      · simp [Ne.symm heq, mt hiff.mp heq]

/-- A type that is hung under the node of its parent makes the linked tree of the table with this
type. -/
theorem hang_ofTable (ht : Grown m t) (hnew : name ∉ t.names)
    (hparent : ∀ parent, m.Extends name parent → parent ∈ t.names) :
    (ofTable t).hang name (position t (modelParent m name)) = ofTable (t.attach m [name]) := by
  have hplace := mem_labels_of_extends hparent
  have hlength : (ofTable t).nodes.length = (labels t).length := List.length_map ..
  have hindex : name ∉ Table.keys (ofTable t).index := by rwa [keys_index]
  have hleaf : nodeOf (t.attach m [name]) (some name)
      = ⟨name, [], some (position t (modelParent m name))⟩ := by
    rw [nodeOf, ht.children_fresh hnew hparent, Option.bind_some,
      Hierarchy.parent?_attach_of_mem hnew (List.mem_singleton_self _), Option.map_some,
      position_attach_of_mem hplace]
    rfl
  unfold hang
  rw [Table.set_of_not_mem hindex, hlength]
  unfold ofTable
  congr 1
  · rw [modify_position _ ht.nodup hplace, labels_attach, List.map_append, List.map_singleton,
      hleaf]
    congr 1
    exact List.map_congr_left fun label hlabel => (nodeOf_attach ht hnew hlabel).symm
  · rw [Hierarchy.names_attach, List.reverse_singleton, List.map_append, List.map_singleton,
      position_attach_self hnew]
    congr 1
    exact List.map_congr_left fun old hold =>
      congrArg (Prod.mk old) (position_attach_of_mem (some_mem_labels.mpr hold)).symm

/-! ## Chains, calls and models -/

theorem place?_ofTable {parent : Option String} (h : parent ∈ labels t) :
    (ofTable t).place? parent = some (position t parent) := by
  cases parent with
  | none => exact congrArg some position_none.symm
  | some parent =>
      exact Table.get?_map_self (fun name => position t (some name)) (some_mem_labels.mp h)

theorem contains_ofTable (t : Hierarchy) : (ofTable t).contains = t.contains := by
  funext name
  rw [Bool.eq_iff_iff, Hierarchy.contains_iff, contains, Table.contains_iff, keys_index]

theorem attach_append {l l' : LinkedTree} {names more : List String} {events : List Event}
    (h : attach m l names = (l', ⟨events, .ok ()⟩)) :
    attach m l (names ++ more)
      = ((attach m l' more).1, ⟨events ++ (attach m l' more).2.events,
        (attach m l' more).2.result⟩) := by
  induction names generalizing l events with
  | nil =>
      obtain ⟨rfl, hdone⟩ := Prod.mk.inj h
      obtain ⟨rfl, -⟩ := Traced.mk.inj hdone
      rfl
  | cons name names ih =>
      rw [List.cons_append, attach]
      rw [attach] at h
      cases hplace : l.place? (modelParent m name) with
      | none =>
          rw [hplace] at h
          cases (Prod.mk.inj h).2
      | some place =>
          simp only [hplace] at h ⊢
          generalize hrest : attach m (l.hang name place) names = rest at h
          obtain ⟨after, events', result⟩ := rest
          obtain ⟨rfl, hdone⟩ := Prod.mk.inj h
          obtain ⟨rfl, rfl⟩ := Traced.mk.inj hdone
          rw [ih hrest]
          rfl

theorem attach_one (ht : Grown m t) (hnew : name ∉ t.names)
    (hparent : ∀ parent, m.Extends name parent → parent ∈ t.names) :
    attach m (ofTable t) [name]
      = (ofTable (t.attach m [name]), ⟨[.inserted name (modelParent m name)], .ok ()⟩) := by
  have hplace := mem_labels_of_extends hparent
  simp only [attach, place?_ofTable hplace, hang_ofTable ht hnew hparent]
  rfl

/-- The loop that attaches a chain finds every parent, and ends in the linked tree of the table
with the whole chain. -/
theorem attach_ofTable (h : Missing m t name chain) (ht : Grown m t) :
    attach m (ofTable t) chain.reverse
      = (ofTable (t.attach m chain),
        ⟨chain.reverse.map fun name => .inserted name (modelParent m name), .ok ()⟩) := by
  induction h with
  | present _ =>
      rw [Hierarchy.attach_nil]
      rfl
  | top hnew _ hnone =>
      exact attach_one ht hnew fun parent hext => by cases hnone.symm.trans hext
  | @under name parent chain hnew hext hrest ih =>
      have hdistinct := (hrest.under hnew hext).nodup ht
      obtain ⟨hgrown, hin⟩ := hrest.grown ht
      have hnew' : name ∉ (t.attach m chain).names := by
        rw [Hierarchy.names_attach, List.mem_append, List.mem_reverse, not_or]
        exact ⟨hnew, (List.nodup_cons.mp hdistinct).1⟩
      have hparent : ∀ p, m.Extends name p → p ∈ (t.attach m chain).names :=
        fun p hp => hext.unique hp ▸ hin
      rw [List.reverse_cons, attach_append ih, attach_one hgrown hnew' hparent,
        ← Hierarchy.attach_cons, List.map_append]
      rfl

theorem find_ofTable (hname : name ∈ t.names) :
    (ofTable t).find name = .ok (position t (some name)) := by
  have hget : (ofTable t).index.get? name = some (position t (some name)) :=
    Table.get?_map_self (fun name => position t (some name)) hname
  rw [find, hget]

/-- A call leads from the linked tree of a table to that of the table after the call. It reports
the same, and ends in the same fault or gives the node of the type. -/
theorem insert_ofTable (ht : Grown m t) (name : String) :
    (ofTable t).insert m name
      = (ofTable (Hierarchy.inserted m t name),
        ⟨(t.insert m name).events,
          (t.insert m name).result.map fun after => position after (some name)⟩) := by
  have hclimb : Hierarchy.climb m (ofTable t).contains (m.names.length + 1) [] name
      = Hierarchy.missing m t name := by
    rw [contains_ofTable]
    rfl
  rw [LinkedTree.insert, hclimb]
  rcases Hierarchy.missing_cases ht name with ⟨_, chain, -, hmissing, hok⟩ | ⟨-, fault, herror⟩
  · have hresult : (t.insert m name).result = .ok (t.attach m chain) := by
      rw [Hierarchy.insert_result, hok]
      rfl
    obtain ⟨-, hin⟩ := hmissing.grown ht
    rw [Hierarchy.inserted_of_ok hresult, Hierarchy.insert, hok]
    simp only [attach_ofTable hmissing ht, find_ofTable hin]
    show (_, Traced.mk (_ ++ []) _) = _
    rw [List.append_nil]
    rfl
  · have hresult : (t.insert m name).result = .error fault := by
      rw [Hierarchy.insert_result, herror]
      rfl
    rw [Hierarchy.inserted_of_error hresult, Hierarchy.insert, herror]
    rfl

/-- The tree after calls for the given names in order, the failing ones included. -/
def insertAll (m : Model) (calls : List String) : LinkedTree :=
  calls.foldl (fun l name => (l.insert m name).1) empty

theorem insertAll_concat (calls : List String) :
    insertAll m (calls ++ [name]) = ((insertAll m calls).insert m name).1 := by
  simp [insertAll]

theorem empty_eq_ofTable : empty = ofTable Hierarchy.empty := rfl

theorem insertAll_eq_ofTable (m : Model) (calls : List String) :
    insertAll m calls = ofTable (Hierarchy.insertAll m calls) := by
  induction calls using List.reverseRecOn with
  | nil => exact empty_eq_ofTable
  | append_singleton calls name ih =>
      rw [insertAll_concat, ih, insert_ofTable (Hierarchy.grown_insertAll calls),
        Hierarchy.insertAll_concat]

theorem foldlM_insert_ofTable {names : List String} (ht : Grown m t) :
    (names.foldlM (fun l name => do
        let (after, inserted) := l.insert m name
        let _ ← inserted
        return after) (ofTable t) : Traced LinkedTree)
      = ofTable <$> names.foldlM (Hierarchy.insert m) t := by
  induction names generalizing t with
  | nil => exact (map_pure ofTable t).symm
  | cons name names ih =>
      have hgrown := ht.inserted name
      rw [List.foldlM_cons, List.foldlM_cons, map_bind, insert_ofTable ht name]
      rw [Hierarchy.inserted] at hgrown ⊢
      generalize t.insert m name = done at hgrown ⊢
      obtain ⟨events, result⟩ := done
      cases result with
      | ok after =>
          have hrest := ih hgrown
          show Traced.mk ((events ++ []) ++ _) _ = Traced.mk (events ++ _) _
          rw [List.append_nil]
          exact congrArg
            (fun rest : Traced LinkedTree => Traced.mk (events ++ rest.events) rest.result) hrest
      | error fault => rfl

/-- The linked tree of a model is that of its table, if there is one, and otherwise there is the
same fault. The same insertions are reported. -/
theorem ofModel_refines (m : Model) : ofModel m = ofTable <$> Hierarchy.ofModel m :=
  foldlM_insert_ofTable .empty

end LinkedTree

end SchemaGen

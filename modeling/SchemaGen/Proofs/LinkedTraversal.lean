import SchemaGen.Proofs.LinkedTrees

/-!
# Nodes and walk of linked trees

What holds of the nodes, the lists of children, the links to parents and the
index of every tree that calls of insertion lead to, failing calls included
(`Linked`), and of the walk through it (`Walked`).

A node below the root is a `Path`: a number that stands in the list of
children of the next, up to the root. The lists of children alone decide
which paths there are. The index and the links to parents are held against
them. So a node that stood in two lists, or in none, would show here, and so
would a name entered with another node, or a link that disagrees with the
lists.

By `insertAll_eq_ofTable` such a tree is the image of a grown table. The
image takes the views of the table to those of the linked tree
(`children_position`, `parent?_position`, `path_iff`, `walk_ofTable`), and
with them the facts of `Hierarchy.Grown.rooted` and `Hierarchy.Grown.walked`.
-/

namespace SchemaGen

namespace LinkedTree

open Hierarchy (modelParent Grown)

variable {m : Model} {t : Hierarchy} {name : String} {label : Option String} {i : Nat}
  {order : SiblingOrder}

/-! ## What holds of a linked tree -/

/-- A node below the root with the nodes above it, nearest first, each standing in the list of
children of the next. -/
inductive Path (l : LinkedTree) : Nat → List Nat → Prop
  | top {i : Nat} : i ∈ l.children 0 → Path l i []
  | under {i j : Nat} {above : List Nat} : i ∈ l.children j → Path l j above → Path l i (j :: above)

/-- What holds of the nodes of a tree. -/
structure Linked (m : Model) (l : LinkedTree) : Prop where
  /-- The root has no name and hangs under nothing. -/
  root : l.isRoot 0 = true
  /-- There is one node for every name in the index, numbered in the order of entry. -/
  numbers : l.index.map Prod.snd = (List.range l.size).map (· + 1) ∧ l.nodes.length = l.size + 1
  /-- A name is entered once. -/
  distinct : (Table.keys l.index).Nodup
  /-- A name in the index labels one node below the root, and every such node is entered with its
  name. -/
  node : ∀ name i, l.index.get? name = some i ↔ (∃ above, l.Path i above) ∧ l.name i = name
  /-- There is one way down to a node. -/
  way : ∀ i above above', l.Path i above → l.Path i above' → above = above'
  /-- A node is linked to the node of the parent that the model gives, or to the root. -/
  parent : ∀ name i, l.index.get? name = some i →
    ∃ place, l.place? (modelParent m name) = some place ∧ l.parent? i = some place
  /-- A node stands once in the list of the node that it is linked to, and in no other list. -/
  place : ∀ name i, l.index.get? name = some i → ∀ j,
    (l.children j).count i = if l.parent? i = some j then 1 else 0
  /-- The ancestors are the chain of parents in the model. -/
  ancestors : ∀ name, l.contains name = true → ∃ above, l.ancestors name = .ok above
    ∧ m.Lineage name above ∧ above.Nodup

/-- What holds of the walk of a tree. -/
structure Walked (l : LinkedTree) (order : SiblingOrder) : Prop where
  /-- The walk ends by itself: further steps of fuel would find the stack empty. -/
  ends : ∀ more, l.visit order (l.nodes.length + more) (l.arrange order (l.children 0))
    = l.walk order
  /-- It is the recursive listing of the tree from the children of the root. -/
  preorder : Hierarchy.Preorder (fun i => l.arrange order (l.children i))
    (l.arrange order (l.children 0)) (l.walk order)
  /-- It meets every name of the index once, at the node that is entered. -/
  once : ((l.walk order).map l.name).Perm (Table.keys l.index)
    ∧ ∀ i ∈ l.walk order, l.index.get? (l.name i) = some i
  /-- Right after a node come its descendants, all of them and nothing else. -/
  block : ∀ before i after, l.walk order = before ++ i :: after →
    ∃ block rest, after = block ++ rest ∧ ∀ j, j ∈ block ↔ ∃ above, l.Path j above ∧ i ∈ above
  /-- In the order of discovery, the first of two siblings was inserted first. -/
  discovery : order = .discovery → ∀ i j, [i, j].Sublist (l.walk order) →
    l.parent? i = l.parent? j → i < j
  /-- In the order of names, the first of two siblings has the name that comes first. -/
  byName : order = .name → ∀ i j, [i, j].Sublist (l.walk order) →
    l.parent? i = l.parent? j → l.name i < l.name j

/-! ## The views of the image -/

theorem nodes_position (h : label ∈ labels t) :
    (ofTable t).nodes[position t label]? = some (nodeOf t label) := by
  rw [ofTable, List.getElem?_map, getElem?_position h]
  rfl

@[simp] theorem name_position (h : name ∈ t.names) :
    (ofTable t).name (position t (some name)) = name := by
  rw [LinkedTree.name, nodes_position (some_mem_labels.mpr h)]
  rfl

theorem children_position (h : label ∈ labels t) :
    (ofTable t).children (position t label)
      = (t.children label).map fun child => position t (some child) := by
  rw [children, nodes_position h]
  rfl

theorem parent?_position (ht : Grown m t) (h : name ∈ t.names) :
    (ofTable t).parent? (position t (some name)) = some (position t (modelParent m name)) := by
  rw [parent?, nodes_position (some_mem_labels.mpr h), Option.bind_some, nodeOf, Option.bind_some,
    ht.parent?_eq h]
  rfl

theorem isRoot_zero (t : Hierarchy) : (ofTable t).isRoot 0 = true := rfl

theorem index_iff : (ofTable t).index.get? name = some i
    ↔ name ∈ t.names ∧ i = position t (some name) := by
  by_cases h : name ∈ t.names
  · have hget := Table.get?_map_self (fun name => position t (some name)) h
    rw [show (ofTable t).index.get? name = _ from hget]
    simp [h, eq_comm]
  · have hget : (ofTable t).index.get? name = none :=
      Table.get?_eq_none.mpr (by rwa [keys_index])
    simp [hget, h]

/-- What stands in lists of children are the types, each in the list of its parent. -/
theorem mem_children_iff (ht : Grown m t) {j : Nat} : i ∈ (ofTable t).children j
    ↔ ∃ name ∈ t.names, i = position t (some name) ∧ j = position t (modelParent m name) := by
  constructor
  · intro h
    cases hj : (labels t)[j]? with
    | none => simp [children, ofTable, hj] at h
    | some label =>
        obtain ⟨hlt, rfl⟩ := List.getElem?_eq_some_iff.mp hj
        have hposition := position_getElem ht.nodup hlt
        rw [← hposition, children_position (List.getElem_mem hlt)] at h
        obtain ⟨child, hchild, rfl⟩ := List.mem_map.mp h
        obtain ⟨hmem, hparent⟩ := ht.mem_children.mp hchild
        exact ⟨child, hmem, rfl, by rw [hparent, hposition]⟩
  · rintro ⟨name, hmem, rfl, rfl⟩
    rw [children_position (modelParent_mem_labels ht hmem)]
    exact List.mem_map_of_mem (ht.mem_children.mpr ⟨hmem, rfl⟩)

theorem nodup_children (ht : Grown m t) (j : Nat) : ((ofTable t).children j).Nodup := by
  cases hj : (labels t)[j]? with
  | none => simp [children, ofTable, hj]
  | some label =>
      obtain ⟨hlt, rfl⟩ := List.getElem?_eq_some_iff.mp hj
      rw [← position_getElem ht.nodup hlt, children_position (List.getElem_mem hlt),
        ht.children_eq]
      refine (ht.nodup.filter _).map_on fun child hchild other _ heq => ?_
      have hmem := some_mem_labels.mpr (List.mem_filter.mp hchild).1
      exact Option.some.inj ((position_inj hmem).mp heq)

/-- The numbers of the types are those after the root, in the order of the table. -/
theorem positions (h : t.names.Nodup) : (t.names.map fun name => position t (some name))
    = (List.range t.names.length).map (· + 1) := by
  refine List.ext_getElem (by simp) fun i hi _ => ?_
  rw [List.length_map] at hi
  have hlt : i + 1 < (labels t).length := by simpa using hi
  have hget : (labels t)[i + 1] = some t.names[i] := by simp [labels]
  rw [List.getElem_map, List.getElem_map, List.getElem_range, ← hget]
  exact position_getElem h hlt

/-! ## Nodes -/

theorem path_iff (ht : Grown m t) {above : List Nat} : (ofTable t).Path i above
    ↔ ∃ name names, t.Path name names ∧ i = position t (some name)
      ∧ above = names.map fun name => position t (some name) := by
  constructor
  · intro hpath
    induction hpath with
    | top hchild =>
        obtain ⟨name, hmem, rfl, hroot⟩ := (mem_children_iff ht).mp hchild
        rw [← @position_none t, position_inj none_mem_labels] at hroot
        exact ⟨name, [], .top (ht.mem_children.mpr ⟨hmem, hroot.symm⟩), rfl, rfl⟩
    | under hchild _ ih =>
        obtain ⟨parent, names, hpath, rfl, rfl⟩ := ih
        obtain ⟨name, hmem, rfl, hparent⟩ := (mem_children_iff ht).mp hchild
        rw [position_inj (some_mem_labels.mpr (ht.path_iff.mp hpath).1)] at hparent
        exact ⟨name, parent :: names, .under (ht.mem_children.mpr ⟨hmem, hparent.symm⟩) hpath,
          rfl, rfl⟩
  · rintro ⟨name, names, hpath, rfl, rfl⟩
    induction hpath with
    | top hchild =>
        obtain ⟨hmem, hnone⟩ := ht.mem_children.mp hchild
        exact .top ((mem_children_iff ht).mpr ⟨_, hmem, rfl, by rw [hnone, position_none]⟩)
    | under hchild _ ih =>
        obtain ⟨hmem, hext⟩ := ht.mem_children.mp hchild
        exact .under ((mem_children_iff ht).mpr ⟨_, hmem, rfl, by rw [hext]⟩) ih

theorem upFrom_ofTable (ht : Grown m t) (fuel : Nat) (h : label ∈ labels t) :
    (ofTable t).upFrom fuel (some (position t label)) = Hierarchy.upFrom t fuel label := by
  induction fuel generalizing label with
  | zero => rfl
  | succ fuel ih =>
      cases label with
      | none =>
          rw [position_none, upFrom, isRoot_zero, if_pos rfl]
          rfl
      | some name =>
          have hmem := some_mem_labels.mp h
          have hnode : (ofTable t).isRoot (position t (some name)) = false := by
            simp [isRoot, parent?_position ht hmem]
          have hjoin : (t.parent? name).join = modelParent m name := by
            rw [ht.parent?_eq hmem]
            rfl
          rw [upFrom, hnode, parent?_position ht hmem, name_position hmem,
            ih (modelParent_mem_labels ht hmem), Hierarchy.upFrom, hjoin]
          rfl

/-- The index holds the nodes below the root under their names. -/
theorem index_iff_path (ht : Grown m t) : (ofTable t).index.get? name = some i
    ↔ (∃ above, (ofTable t).Path i above) ∧ (ofTable t).name i = name := by
  rw [index_iff]
  constructor
  · rintro ⟨hmem, rfl⟩
    obtain ⟨above, hpath, -⟩ := ht.rooted.node name hmem
    exact ⟨⟨_, (path_iff ht).mpr ⟨name, above, hpath, rfl, rfl⟩⟩, name_position hmem⟩
  · rintro ⟨⟨above, hlinked⟩, hname⟩
    obtain ⟨other, names, hpath, rfl, rfl⟩ := (path_iff ht).mp hlinked
    have hmem := (ht.path_iff.mp hpath).1
    rw [name_position hmem] at hname
    exact ⟨hname ▸ hmem, by rw [hname]⟩

theorem path_unique (ht : Grown m t) {above above' : List Nat}
    (h : (ofTable t).Path i above) (h' : (ofTable t).Path i above') : above = above' := by
  obtain ⟨name, names, hpath, rfl, rfl⟩ := (path_iff ht).mp h
  obtain ⟨other, names', hpath', hsame, rfl⟩ := (path_iff ht).mp h'
  obtain ⟨hmem, hchain⟩ := ht.path_iff.mp hpath
  rw [position_inj (some_mem_labels.mpr hmem)] at hsame
  obtain rfl := Option.some.inj hsame
  rw [hchain.unique (ht.path_iff.mp hpath').2]

/-- A node stands in the list that it is linked to. -/
theorem count_children (ht : Grown m t) (hmem : name ∈ t.names) (j : Nat) :
    ((ofTable t).children j).count (position t (some name))
      = if (ofTable t).parent? (position t (some name)) = some j then 1 else 0 := by
  rw [parent?_position ht hmem]
  split
  · rename_i hparent
    refine List.count_eq_one_of_mem (nodup_children ht j) ((mem_children_iff ht).mpr ?_)
    exact ⟨name, hmem, rfl, (Option.some.inj hparent).symm⟩
  · rename_i hother
    refine List.count_eq_zero.mpr fun hchild => hother ?_
    obtain ⟨other, -, hsame, rfl⟩ := (mem_children_iff ht).mp hchild
    rw [position_inj (some_mem_labels.mpr hmem)] at hsame
    rw [Option.some.inj hsame]

theorem ancestors_ofTable (ht : Grown m t) (hmem : name ∈ t.names) {above : List String}
    (hchain : m.Lineage name above) : (ofTable t).ancestors name = .ok above := by
  obtain ⟨above', hchain', hsub⟩ := ht.lineage hmem
  obtain rfl := hchain.unique hchain'
  have hfuel : above.length ≤ (ofTable t).nodes.length := by
    rw [ofTable, List.length_map, length_labels]
    exact Nat.le_succ_of_le ((List.nodup_cons.mp hchain.nodup).2.length_le_of_subset hsub)
  rw [ancestors, find_ofTable hmem]
  refine congrArg Except.ok ?_
  show (ofTable t).upFrom _ ((ofTable t).parent? _) = above
  rw [parent?_position ht hmem, upFrom_ofTable ht _ (modelParent_mem_labels ht hmem),
    ht.upFrom_eq hmem hchain hfuel]

theorem linked_ofTable (ht : Grown m t) : Linked m (ofTable t) where
  root := isRoot_zero t
  numbers := by
    have hsize : (ofTable t).size = t.names.length := List.length_map ..
    have hindex : (ofTable t).index.map Prod.snd
        = t.names.map fun name => position t (some name) := List.map_map
    exact ⟨by rw [hindex, hsize, positions ht.nodup], by rw [hsize, ofTable]; simp⟩
  distinct := by rw [keys_index]; exact ht.nodup
  node _ _ := index_iff_path ht
  way _ _ _ := path_unique ht
  parent name i hentry := by
    obtain ⟨hmem, rfl⟩ := index_iff.mp hentry
    exact ⟨_, place?_ofTable (modelParent_mem_labels ht hmem), parent?_position ht hmem⟩
  place name i hentry := by
    obtain ⟨hmem, rfl⟩ := index_iff.mp hentry
    exact count_children ht hmem
  ancestors name hin := by
    rw [contains_ofTable, Hierarchy.contains_iff] at hin
    obtain ⟨above, hchain, -⟩ := ht.lineage hin
    exact ⟨above, ancestors_ofTable ht hin hchain, hchain, (List.nodup_cons.mp hchain.nodup).2⟩

/-! ## The walk -/

theorem arrange_ofTable {names : List String} (h : names ⊆ t.names) :
    (ofTable t).arrange order (names.map fun name => position t (some name))
      = (Hierarchy.arrange order names).map fun name => position t (some name) := by
  cases order with
  | discovery => rfl
  | name =>
      refine (List.map_mergeSort fun a ha b hb => ?_).symm
      rw [name_position (h ha), name_position (h hb)]

theorem arrange_children (h : label ∈ labels t) :
    (ofTable t).arrange order ((ofTable t).children (position t label))
      = (Hierarchy.arrange order (t.children label)).map fun name => position t (some name) := by
  rw [children_position h, arrange_ofTable fun child hchild => mem_names_of_mem_children hchild]

theorem visit_ofTable (fuel : Nat) {stack : List String} (h : stack ⊆ t.names) :
    (ofTable t).visit order fuel (stack.map fun name => position t (some name))
      = (Hierarchy.visit t order fuel stack).map fun name => position t (some name) := by
  induction fuel generalizing stack with
  | zero => simp [visit, Hierarchy.visit]
  | succ fuel ih =>
      cases stack with
      | nil => simp [visit, Hierarchy.visit]
      | cons name stack =>
          obtain ⟨hname, hrest⟩ := List.cons_subset.mp h
          have hnext : Hierarchy.arrange order (t.children (some name)) ++ stack ⊆ t.names := by
            refine List.append_subset.mpr ⟨fun child hchild => ?_, hrest⟩
            exact mem_names_of_mem_children ((Hierarchy.arrange_perm ..).subset hchild)
          rw [List.map_cons, visit, arrange_children (some_mem_labels.mpr hname),
            ← List.map_append, ih hnext, Hierarchy.visit, List.map_cons]

theorem visit_roots (ht : Grown m t) (order : SiblingOrder) (more : Nat) :
    (ofTable t).visit order ((ofTable t).nodes.length + more)
        ((ofTable t).arrange order ((ofTable t).children 0))
      = (t.walk order).map fun name => position t (some name) := by
  have hsize : (ofTable t).nodes.length + more = t.size + (1 + more) := by
    rw [ofTable, List.length_map, length_labels, Hierarchy.names, Table.keys, List.length_map,
      Hierarchy.size, Nat.add_assoc]
  have hroots := @arrange_children t none order none_mem_labels
  rw [position_none] at hroots
  rw [hsize, hroots, visit_ofTable _ fun child hchild =>
    mem_names_of_mem_children ((Hierarchy.arrange_perm ..).subset hchild), ht.visit_size_add]

/-- The walk meets the nodes of the types in the order in which the table lists them. -/
theorem walk_ofTable (ht : Grown m t) (order : SiblingOrder) : (ofTable t).walk order
    = (t.walk order).map fun name => position t (some name) :=
  visit_roots ht order 0

theorem mem_names_of_mem_walk (ht : Grown m t) (h : name ∈ t.walk order) : name ∈ t.names :=
  (ht.walk_spec order).2.subset h

/-- By their names, the walk is that of the table. -/
theorem names_walk (ht : Grown m t) (order : SiblingOrder) :
    ((ofTable t).walk order).map (ofTable t).name = t.walk order := by
  rw [walk_ofTable ht, List.map_map]
  exact (List.map_congr_left fun name hname =>
    name_position (mem_names_of_mem_walk ht hname)).trans (List.map_id' _)

/-- Two siblings on the walk are those of the table. -/
theorem siblings_on_walk (ht : Grown m t) {j : Nat} (h : [i, j].Sublist ((ofTable t).walk order))
    (hparent : (ofTable t).parent? i = (ofTable t).parent? j) :
    ∃ a ∈ t.names, ∃ b ∈ t.names, i = position t (some a) ∧ j = position t (some b)
      ∧ [a, b].Sublist
          ((t.walk order).filter fun name => modelParent m name = modelParent m a) := by
  rw [walk_ofTable ht] at h
  obtain ⟨names, hnames, heq⟩ := List.sublist_map_iff.mp h
  obtain ⟨a, rest, rfl, rfl, hrest⟩ := List.map_eq_cons_iff.mp heq.symm
  obtain ⟨b, none, rfl, rfl, hnone⟩ := List.map_eq_cons_iff.mp hrest
  obtain rfl := List.map_eq_nil_iff.mp hnone
  have ha := mem_names_of_mem_walk ht (hnames.subset (by simp : a ∈ [a, b]))
  have hb := mem_names_of_mem_walk ht (hnames.subset (by simp : b ∈ [a, b]))
  refine ⟨a, ha, b, hb, rfl, rfl, ?_⟩
  rw [parent?_position ht ha, parent?_position ht hb, Option.some_inj,
    position_inj (modelParent_mem_labels ht ha)] at hparent
  have hsub := hnames.filter fun name => decide (modelParent m name = modelParent m a)
  rwa [List.filter_eq_self.mpr] at hsub
  intro c hc
  rcases List.mem_cons.mp hc with rfl | hc
  · exact decide_eq_true rfl
  · rw [List.mem_singleton.mp hc]
    exact decide_eq_true hparent.symm

/-- The block after a node on the walk holds the nodes below it. -/
theorem block_on_walk (ht : Grown m t) {before after : List Nat}
    (h : (ofTable t).walk order = before ++ i :: after) :
    ∃ block rest, after = block ++ rest
      ∧ ∀ j, j ∈ block ↔ ∃ above, (ofTable t).Path j above ∧ i ∈ above := by
  rw [walk_ofTable ht] at h
  obtain ⟨before, rest, hwalk, rfl, hrest⟩ := List.map_eq_append_iff.mp h
  obtain ⟨name, after, rfl, rfl, rfl⟩ := List.map_eq_cons_iff.mp hrest
  obtain ⟨block, rest, rfl, hblock⟩ := ht.walk_block hwalk
  refine ⟨_, _, List.map_append, fun j => ?_⟩
  have hname : name ∈ t.names := mem_names_of_mem_walk ht (by rw [hwalk]; simp)
  constructor
  · intro hj
    obtain ⟨y, hy, rfl⟩ := List.mem_map.mp hj
    obtain ⟨hmem, hanc⟩ := (hblock y).mp hy
    obtain ⟨above, hchain, -⟩ := ht.lineage hmem
    exact ⟨_, (path_iff ht).mpr ⟨y, above, ht.path_iff.mpr ⟨hmem, hchain⟩, rfl, rfl⟩,
      List.mem_map_of_mem (hchain.mem_iff.mpr hanc)⟩
  · rintro ⟨above, hlinked, hin⟩
    obtain ⟨y, names, hpath, rfl, rfl⟩ := (path_iff ht).mp hlinked
    obtain ⟨hmem, hchain⟩ := ht.path_iff.mp hpath
    obtain ⟨z, hz, hsame⟩ := List.mem_map.mp hin
    rw [eq_comm, position_inj (some_mem_labels.mpr hname)] at hsame
    obtain rfl := Option.some.inj hsame
    exact List.mem_map_of_mem ((hblock y).mpr ⟨hmem, hchain.mem_iff.mp hz⟩)

theorem walked_ofTable (ht : Grown m t) (order : SiblingOrder) : Walked (ofTable t) order where
  ends more := by rw [visit_roots ht order more, walk_ofTable ht]
  preorder := by
    have hroots := @arrange_children t none order none_mem_labels
    rw [position_none] at hroots
    rw [hroots, walk_ofTable ht]
    exact (ht.walk_spec order).1.map _ fun name hname =>
      arrange_children (some_mem_labels.mpr (mem_names_of_mem_walk ht hname))
  once := by
    rw [names_walk ht, keys_index]
    refine ⟨(ht.walk_spec order).2, fun i hi => ?_⟩
    rw [walk_ofTable ht] at hi
    obtain ⟨name, hname, rfl⟩ := List.mem_map.mp hi
    have hmem := mem_names_of_mem_walk ht hname
    exact index_iff.mpr ⟨by rwa [name_position hmem], by rw [name_position hmem]⟩
  block _ _ _ := block_on_walk ht
  discovery horder i j hsub hparent := by
    obtain ⟨a, -, b, -, rfl, rfl, hsiblings⟩ := siblings_on_walk ht hsub hparent
    rw [(ht.walked order).discovery horder] at hsiblings
    have hpositions := (hsiblings.trans List.filter_sublist).map fun name =>
      position t (some name)
    rw [positions ht.nodup] at hpositions
    have hincreasing : ((List.range t.names.length).map (· + 1)).Pairwise (· < ·) :=
      List.pairwise_lt_range.map _ fun _ _ hlt => Nat.succ_lt_succ hlt
    simpa using hincreasing.sublist hpositions
  byName horder i j hsub hparent := by
    obtain ⟨a, ha, b, hb, rfl, rfl, hsiblings⟩ := siblings_on_walk ht hsub hparent
    rw [name_position ha, name_position hb]
    simpa using ((ht.walked order).byName horder _).sublist hsiblings

/-- A further call only enters types behind those that are there. -/
theorem index_prefix_ofTable {t' : Hierarchy} (h : t.names <+: t'.names) :
    (ofTable t).index <+: (ofTable t').index := by
  obtain ⟨more, hmore⟩ := h
  refine ⟨more.map fun name => (name, position t' (some name)), ?_⟩
  rw [ofTable, ofTable, ← hmore, List.map_append]
  congr 1
  refine List.map_congr_left fun name hname => ?_
  have hlabels : labels t' = labels t ++ more.map some := by simp [labels, ← hmore]
  rw [position, position, hlabels, List.idxOf_append_of_mem (some_mem_labels.mpr hname)]

/-- After any list of calls, the index, the lists of children and the links to parents agree with
each other and with the model; the walk lists the nodes in preorder, siblings in the order asked
for; and a further call only enters types behind those that are there. -/
theorem insertAll_linked_walked (m : Model) (calls : List String) (order : SiblingOrder) :
    Linked m (insertAll m calls) ∧ Walked (insertAll m calls) order
      ∧ ∀ name, (insertAll m calls).index <+: (insertAll m (calls ++ [name])).index := by
  have hgrown := @Hierarchy.grown_insertAll m calls
  simp only [insertAll_eq_ofTable, Hierarchy.insertAll_concat]
  exact ⟨linked_ofTable hgrown, walked_ofTable hgrown order, fun name =>
    index_prefix_ofTable (Hierarchy.names_prefix_inserted hgrown name)⟩

end LinkedTree

end SchemaGen

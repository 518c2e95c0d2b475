import Mathlib.Data.List.Count
import SchemaGen.Proofs.Histories
import SchemaGen.Proofs.Preorder

/-!
# Nodes and traversal of reachable trees

A tree is one table of types with their parents. The lists of children, the
ancestors and the walk are views of the table. They must agree with each
other and with the model on every tree that calls of insertion lead to,
failing calls included. (Where each of them is kept for itself, they agree
by the theory of linked trees, which rests on this one.)

`Path` is a node below the root, given by the types on the way down to it.
The lists of children alone decide which paths there are, so a type that
stood in two lists, or under a type that is not in the tree, would show as
two paths or as none. `Rooted` says that neither happens, and that parents
and ancestors are those of the model.

`Walked` is about the walk. That it is the recursive listing is
`Grown.walk_spec`. Two consequences are drawn from the listing alone: a type
is followed by the listing of its children (`Preorder.exists_block`), and the
children of a type keep their order (`Preorder.kids_sublist`).
-/

namespace SchemaGen

namespace Hierarchy

variable {m : Model} {t : Hierarchy} {name parent : String} {above : List String}
variable {order : SiblingOrder}

/-! ## Nodes -/

/-- A node below the root: a type with the types above it, nearest first, each standing in the
list of children of the next. -/
inductive Path (t : Hierarchy) : String → List String → Prop
  | top {name : String} : name ∈ t.children none → Path t name []
  | under {name parent : String} {above : List String} :
      name ∈ t.children (some parent) → Path t parent above → Path t name (parent :: above)

/-- What holds of the nodes of a tree. -/
structure Rooted (m : Model) (t : Hierarchy) : Prop where
  /-- A type is entered once, -/
  distinct : t.names.Nodup
  /-- it labels one node below the root, -/
  node : ∀ name ∈ t.names, ∃! above, t.Path name above
  /-- and every node below the root is labelled by a type that is entered. -/
  label : ∀ name above, t.Path name above → name ∈ t.names
  /-- The parent is the one that the model gives, and it is in the tree. -/
  parent : ∀ name ∈ t.names, t.parent? name = some (modelParent m name)
    ∧ ∀ parent, m.Extends name parent → parent ∈ t.names
  /-- A type stands once in the list of its parent, or of the root, and in no other list. -/
  place : ∀ name ∈ t.names, ∀ parent,
    (t.children parent).count name = if parent = modelParent m name then 1 else 0
  /-- The ancestors are the chain of parents in the model. -/
  ancestors : ∀ name ∈ t.names, ∃ above, t.ancestors name = .ok above
    ∧ m.Lineage name above ∧ above.Nodup

namespace Grown

theorem parent_mem (ht : Grown m t) (hmem : name ∈ t.names) (hext : m.Extends name parent) :
    parent ∈ t.names := by
  obtain ⟨above, hchain, hsub⟩ := ht.lineage hmem
  exact hsub (hchain.mem_iff.mpr (Relation.TransGen.single hext))

/-- The way down to a type is its lineage. -/
theorem path_iff (ht : Grown m t) :
    t.Path name above ↔ name ∈ t.names ∧ m.Lineage name above := by
  constructor
  · intro hpath
    induction hpath with
    | top hchild =>
        obtain ⟨hmem, hnone⟩ := ht.mem_children.mp hchild
        exact ⟨hmem, .top (ht.mem_model hmem) hnone⟩
    | under hchild _ ih =>
        obtain ⟨hmem, hext⟩ := ht.mem_children.mp hchild
        exact ⟨hmem, .under hext ih.2⟩
  · rintro ⟨hmem, hchain⟩
    induction hchain with
    | top _ hnone => exact .top (ht.mem_children.mpr ⟨hmem, hnone⟩)
    | under hext _ ih =>
        exact .under (ht.mem_children.mpr ⟨hmem, hext⟩) (ih (ht.parent_mem hmem hext))

/-- Following parents through the table gives the lineage, once there is a step of fuel for each
of its types. -/
theorem upFrom_eq (ht : Grown m t) (hmem : name ∈ t.names) (hchain : m.Lineage name above)
    {fuel : Nat} (hfuel : above.length ≤ fuel) : upFrom t fuel (modelParent m name) = above := by
  induction hchain generalizing fuel with
  | top _ hnone =>
      rw [hnone]
      cases fuel <;> rfl
  | @under name parent above hext _ ih =>
      have hparent := ht.parent_mem hmem hext
      obtain ⟨fuel, rfl⟩ : ∃ less, fuel = less + 1 :=
        Nat.exists_eq_succ_of_ne_zero fun hzero => by simp [hzero] at hfuel
      have hjoin : (t.parent? parent).join = modelParent m parent := by
        rw [ht.parent?_eq hparent]
        rfl
      rw [show modelParent m name = some parent from hext, upFrom, hjoin,
        ih hparent (Nat.le_of_succ_le_succ hfuel)]

theorem rooted (ht : Grown m t) : Rooted m t where
  distinct := ht.nodup
  node name hmem := by
    obtain ⟨above, hchain, -⟩ := ht.lineage hmem
    refine ⟨above, ht.path_iff.mpr ⟨hmem, hchain⟩, fun above' hpath => ?_⟩
    exact (ht.path_iff.mp hpath).2.unique hchain
  label name above hpath := (ht.path_iff.mp hpath).1
  parent name hmem := ⟨ht.parent?_eq hmem, fun _ => ht.parent_mem hmem⟩
  place name hmem parent := by
    split
    · rename_i heq
      rw [ht.children_eq, List.count_filter (by simp [heq])]
      exact List.count_eq_one_of_mem ht.nodup hmem
    · rename_i hne
      refine List.count_eq_zero.mpr fun hchild => hne ?_
      exact (ht.mem_children.mp hchild).2.symm
  ancestors name hmem := by
    obtain ⟨above, hchain, hsub⟩ := ht.lineage hmem
    have hdistinct := (List.nodup_cons.mp hchain.nodup).2
    have hsize : above.length ≤ t.size := by
      have hle := hdistinct.length_le_of_subset hsub
      rwa [names, Table.keys, List.length_map] at hle
    refine ⟨above, ?_, hchain, hdistinct⟩
    rw [Hierarchy.ancestors, ht.parent?_eq hmem]
    exact congrArg Except.ok (ht.upFrom_eq hmem hchain hsize)

end Grown

/-! ## Consequences of the listing -/

namespace Preorder

variable {kids : String → List String} {roots listing : List String}

theorem roots_sublist (h : Preorder kids roots listing) : roots.Sublist listing := by
  induction h with
  | nil => exact List.Sublist.refl _
  | cons _ _ _ ihafter => exact (ihafter.trans (List.sublist_append_right ..)).cons_cons _

theorem kids_sublist (h : Preorder kids roots listing) (hmem : name ∈ listing) :
    (kids name).Sublist listing := by
  induction h with
  | nil => cases hmem
  | @cons root roots below after hbelow _ ihbelow ihafter =>
      have hblock : below.Sublist (root :: (below ++ after)) :=
        (List.sublist_append_left ..).cons _
      rcases List.mem_cons.mp hmem with rfl | hmem
      · exact hbelow.roots_sublist.trans hblock
      rcases List.mem_append.mp hmem with hmem | hmem
      · exact (ihbelow hmem).trans hblock
      · exact (ihafter hmem).trans ((List.sublist_append_right ..).cons _)

/-- The listing holds what is reached from the roots by going down. -/
theorem mem_iff (h : Preorder kids roots listing) {y : String} :
    y ∈ listing ↔ ∃ root ∈ roots, Relation.ReflTransGen (fun a b => b ∈ kids a) root y := by
  induction h with
  | nil => simp
  | @cons root roots below after _ _ ihbelow ihafter =>
      have hroot : Relation.ReflTransGen (fun a b => b ∈ kids a) root y
          ↔ y = root ∨ ∃ kid ∈ kids root,
              Relation.ReflTransGen (fun a b => b ∈ kids a) kid y := by
        rw [Relation.ReflTransGen.cases_head_iff, eq_comm]
      rw [List.mem_cons, List.mem_append, ihbelow, ihafter, List.exists_mem_cons_iff, hroot,
        or_assoc]

end Preorder

/-! ## The walk -/

/-- What holds of the walk of a tree. -/
structure Walked (m : Model) (t : Hierarchy) (order : SiblingOrder) : Prop where
  /-- The walk ends by itself: further steps of fuel would find the stack empty. -/
  ends : ∀ more, visit t order (t.size + more) (arrange order (t.children none)) = t.walk order
  /-- It is the recursive listing of the tree from the children of the root. -/
  preorder : Preorder (t.visited order) (arrange order (t.children none)) (t.walk order)
  /-- It holds every type of the tree once. -/
  once : (t.walk order).Nodup ∧ ∀ name, name ∈ t.walk order ↔ name ∈ t.names
  /-- Right after a type come its descendants, all of them and nothing else. -/
  block : ∀ before name after, t.walk order = before ++ name :: after →
    ∃ block rest, after = block ++ rest ∧ ∀ y, y ∈ block ↔ y ∈ t.names ∧ m.Ancestor y name
  /-- In the order of discovery, siblings stand as they were inserted. -/
  discovery : order = .discovery → ∀ parent,
    (t.walk order).filter (fun name => modelParent m name = parent)
      = t.names.filter fun name => modelParent m name = parent
  /-- In the order of names, siblings stand by the code points of their names. -/
  byName : order = .name → ∀ parent,
    ((t.walk order).filter fun name => modelParent m name = parent).Pairwise (· < ·)

namespace Grown

theorem visit_size_add (ht : Grown m t) (order : SiblingOrder) (more : Nat) :
    visit t order (t.size + more) (arrange order (t.children none)) = t.walk order := by
  obtain ⟨hlisting, hperm⟩ := ht.walk_spec order
  have hsize : t.size = (t.walk order).length := by
    rw [hperm.length_eq, size, names, Table.keys, List.length_map]
  have hvisit := visit_eq hlisting more []
  rw [List.append_nil, ← hsize] at hvisit
  rw [hvisit]
  cases more <;> simp [visit]

theorem mem_visited (ht : Grown m t) {child : String} :
    child ∈ t.visited order name ↔ child ∈ t.names ∧ m.Extends child name :=
  (arrange_perm ..).mem_iff.trans ht.mem_children

/-- What lies below a type are its descendants in the tree. -/
theorem below_iff (ht : Grown m t) (order : SiblingOrder) {y : String} :
    Relation.TransGen (fun a b => b ∈ t.visited order a) name y
      ↔ y ∈ t.names ∧ m.Ancestor y name := by
  constructor
  · intro hbelow
    induction hbelow with
    | single hstep =>
        obtain ⟨hmem, hext⟩ := ht.mem_visited.mp hstep
        exact ⟨hmem, .single hext⟩
    | tail _ hstep ih =>
        obtain ⟨hmem, hext⟩ := ht.mem_visited.mp hstep
        exact ⟨hmem, .head hext ih.2⟩
  · rintro ⟨hmem, hanc⟩
    induction hanc using Relation.TransGen.head_induction_on with
    | single hext => exact .single (ht.mem_visited.mpr ⟨hmem, hext⟩)
    | head hext _ ih =>
        exact .tail (ih (ht.parent_mem hmem hext)) (ht.mem_visited.mpr ⟨hmem, hext⟩)

theorem walk_block (ht : Grown m t) {before after : List String}
    (hsplit : t.walk order = before ++ name :: after) :
    ∃ block rest, after = block ++ rest ∧ ∀ y, y ∈ block ↔ y ∈ t.names ∧ m.Ancestor y name := by
  obtain ⟨block, rest, hafter, hblock⟩ := (ht.walk_spec order).1.exists_block hsplit
  refine ⟨block, rest, hafter, fun y => ?_⟩
  rw [hblock.mem_iff, ← ht.below_iff order, Relation.TransGen.head'_iff]

theorem arrange_sublist_walk (ht : Grown m t) (order : SiblingOrder) (parent : Option String) :
    (arrange order (t.children parent)).Sublist (t.walk order) := by
  obtain ⟨hlisting, hperm⟩ := ht.walk_spec order
  cases parent with
  | none => exact hlisting.roots_sublist
  | some parent =>
      by_cases hmem : parent ∈ t.names
      · exact hlisting.kids_sublist (hperm.mem_iff.mpr hmem)
      · have hchildless : arrange order (t.children (some parent)) = [] := by
          refine List.eq_nil_iff_forall_not_mem.mpr fun child hchild => hmem ?_
          obtain ⟨hchild, hext⟩ := ht.mem_visited.mp hchild
          exact ht.parent_mem hchild hext
        rw [hchildless]
        exact List.nil_sublist _

/-- The walk meets the types with one parent in the order in which they are arranged. -/
theorem filter_walk (ht : Grown m t) (order : SiblingOrder) (parent : Option String) :
    (t.walk order).filter (fun name => modelParent m name = parent)
      = arrange order (t.children parent) := by
  have hperm := (arrange_perm order (t.children parent))
  have hall : (arrange order (t.children parent)).filter (fun name => modelParent m name = parent)
      = arrange order (t.children parent) := by
    refine List.filter_eq_self.mpr fun child hchild => ?_
    simpa using (ht.mem_children.mp (hperm.mem_iff.mp hchild)).2
  have hsub := (ht.arrange_sublist_walk order parent).filter
    fun name => modelParent m name = parent
  rw [hall] at hsub
  refine (hsub.eq_of_length ?_).symm
  rw [hperm.length_eq, ht.children_eq]
  exact ((ht.walk_spec order).2.filter _).length_eq.symm

end Grown

theorem pairwise_sorted (names : List String) :
    (names.mergeSort fun a b => decide (a ≤ b)).Pairwise (· ≤ ·) := by
  have htrans : ∀ a b c : String, decide (a ≤ b) = true → decide (b ≤ c) = true →
      decide (a ≤ c) = true := by
    intro a b c hab hbc
    simp only [decide_eq_true_eq] at hab hbc ⊢
    exact String.le_trans hab hbc
  have htotal : ∀ a b : String, (decide (a ≤ b) || decide (b ≤ a)) = true := by
    intro a b
    simpa using String.le_total a b
  exact (List.pairwise_mergeSort htrans htotal names).imp of_decide_eq_true

/-- Sorting forgets the order. -/
theorem sorted_eq_of_perm {names names' : List String} (h : names.Perm names') :
    (names.mergeSort fun a b => decide (a ≤ b)) = names'.mergeSort fun a b => decide (a ≤ b) := by
  refine List.Perm.eq_of_pairwise (fun a b _ _ => String.le_antisymm) (pairwise_sorted names)
    (pairwise_sorted names') ?_
  exact (List.mergeSort_perm ..).trans (h.trans (List.mergeSort_perm ..).symm)

theorem arrange_name_pairwise {names : List String} (hdistinct : names.Nodup) :
    (arrange .name names).Pairwise (· < ·) := by
  have hdistinct' : (arrange .name names).Nodup := (arrange_perm ..).nodup_iff.mpr hdistinct
  refine ((pairwise_sorted names).and hdistinct').imp fun hab => ?_
  obtain ⟨hle, hne⟩ := hab
  exact String.not_le.mp fun hge => hne (String.le_antisymm hle hge)

theorem Grown.walked (ht : Grown m t) (order : SiblingOrder) : Walked m t order where
  ends := ht.visit_size_add order
  preorder := (ht.walk_spec order).1
  once := by
    obtain ⟨-, hperm⟩ := ht.walk_spec order
    exact ⟨hperm.nodup_iff.mpr ht.nodup, fun _ => hperm.mem_iff⟩
  block _ _ _ := ht.walk_block
  discovery horder parent := by
    rw [ht.filter_walk, horder, ← ht.children_eq]
    rfl
  byName horder parent := by
    rw [ht.filter_walk, horder, ht.children_eq]
    exact arrange_name_pairwise (ht.nodup.filter _)

/-- Insertion adds types at the end of the list of types. -/
theorem names_prefix_inserted (ht : Grown m t) (name : String) :
    t.names <+: (inserted m t name).names := by
  rcases insert_cases ht name with ⟨_, chain, -, -, hok⟩ | ⟨-, _, herror⟩
  · rw [inserted_of_ok hok, names_attach]
    exact List.prefix_append _ _
  · simp only [inserted_of_error herror, List.prefix_rfl]

/-- After any list of calls, the tree has one node for every type that is entered, under the
parent that the model gives; the walk lists it in preorder, siblings in the order asked for; and a
further call only adds types behind those that are there. -/
theorem insertAll_rooted_walked (m : Model) (calls : List String) (order : SiblingOrder) :
    Rooted m (insertAll m calls) ∧ Walked m (insertAll m calls) order
      ∧ ∀ name, (insertAll m calls).names <+: (insertAll m (calls ++ [name])).names := by
  have hgrown := @grown_insertAll m calls
  refine ⟨hgrown.rooted, hgrown.walked order, fun name => ?_⟩
  rw [insertAll_concat]
  exact names_prefix_inserted hgrown name

end Hierarchy

end SchemaGen
